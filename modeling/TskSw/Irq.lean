import TskSw.Errno
import TskSw.BlkIo

/-! The interrupt lines of `kern/irq.c`. A line keeps one attribute word for all its
handlers, and every registration overwrites it. Interrupts are off while a line is changed,
so that a call is one step. The list of handlers is the sequence it holds. -/
namespace TskSw.Irq
open BlkIo (Fault)

abbrev nrIrqs : Nat := 256

def irqAttrExclusive : BitVec 32 := 0x1
def irqAttrNonNestable : BitVec 32 := 0x2
def irqAttrHandlerMask : BitVec 32 := 0xf
def irqAttrEdge : BitVec 32 := 0x10

structure IrqCtrlr (σ : Type) where
  configIrq : Option (Nat → BitVec 32 → BitVec 32 → σ → Int × σ)
  enableIrq : Nat → σ → σ
  disableIrq : Nat → σ → σ

structure IrqHandlerEnt (η ρ : Type) where
  handler : Option η
  priv : ρ
  asked : BitVec 32

structure IrqLine (η ρ σ : Type) where
  attr : BitVec 32
  prio : BitVec 32
  handlers : List (IrqHandlerEnt η ρ)
  ctrlrp : Option (IrqCtrlr σ)

structure IrqManage (η ρ σ : Type) where
  irqs : Fin nrIrqs → IrqLine η ρ σ
  hw : σ

variable {η ρ σ : Type} {mem : Bool} {irq rc : Int} {attr prio : BitVec 32} {s s' : IrqManage η ρ σ} {priv : ρ} {handler : Option η}

section Functions

def lineOf (irq : Int) : Option (Fin nrIrqs) := if h : 0 ≤ irq ∧ irq.toNat < nrIrqs then some ⟨irq.toNat,h.2⟩ else none

def IrqManage.set (s : IrqManage η ρ σ) (i : Fin nrIrqs) (linep : IrqLine η ρ σ) : IrqManage η ρ σ :=
  {s with irqs := Function.update s.irqs i linep}

def configureLine (configIrq : Nat → BitVec 32 → BitVec 32 → σ → Int × σ) (ctrlr : IrqCtrlr σ) (i : Fin nrIrqs) (attr prio : BitVec 32)
    (ent : IrqHandlerEnt η ρ) (s : IrqManage η ρ σ) : Int × IrqManage η ρ σ :=
  let linep := {s.irqs i with attr := attr, prio := prio}
  let (rc,hw) := configIrq i attr prio s.hw
  if rc ≠ 0 then (rc,{s.set i linep with hw := hw})
  else
    let hw := if linep.handlers.isEmpty then ctrlr.enableIrq i hw else hw
    (0,{s.set i {linep with handlers := linep.handlers ++ [ent]} with hw := hw})

def irqRegisterHandler (mem : Bool) (irq : Int) (attr prio : BitVec 32) (priv : ρ) (handler : Option η) (s : IrqManage η ρ σ) :
    Int × IrqManage η ρ σ :=
  match lineOf irq with
  | none => (einval,s)
  | some i =>
    let handlerAttr := attr &&& irqAttrHandlerMask
    let linep := s.irqs i
    if handlerAttr &&& irqAttrNonNestable = 0 ∧ linep.attr &&& irqAttrNonNestable ≠ 0 then (einval,s)
    else if handlerAttr &&& irqAttrExclusive ≠ 0 ∧ linep.handlers.isEmpty = false then (ebusy,s)
    else
      match linep.ctrlrp with
      | none => (enoent,s)
      | some ctrlr =>
        match ctrlr.configIrq with
        | none => (enoent,s)
        | some configIrq => if mem then configureLine configIrq ctrlr i attr prio ⟨handler,priv,attr⟩ s else (enomem,s)

def irqUnregisterHandler [DecidableEq η] (irq : Int) (handler : Option η) (s : IrqManage η ρ σ) : Except Fault (Int × IrqManage η ρ σ) :=
  match lineOf irq with
  | none => .ok (einval,s)
  | some i =>
    let linep := s.irqs i
    if linep.handlers.any (fun entp => entp.handler = handler) then
      let rest := linep.handlers.eraseP (fun entp => entp.handler = handler)
      let s := s.set i {linep with handlers := rest}
      if rest.isEmpty then
        match linep.ctrlrp with
        | none => .error .nullPointer
        | some ctrlr => .ok (0,{s with hw := ctrlr.disableIrq i s.hw})
      else .ok (0,s)
    else .ok (enoent,s)

def invokeLoop (handle : η → Int → ρ → Bool) (linep : IrqLine η ρ σ) (irq : Int) :
    List (IrqHandlerEnt η ρ) → Int → Int × List (η × Bool)
  | [],rc => (rc,[])
  | entp :: rest,rc =>
    match entp.handler with
    | none => invokeLoop handle linep irq rest rc
    | some handler =>
      let enabled := decide (linep.attr &&& irqAttrNonNestable = 0)
      let (rc,calls) := invokeLoop handle linep irq rest (if handle handler irq entp.priv then 0 else rc)
      (rc,(handler,enabled) :: calls)

def invokeIrqHandler (handle : η → Int → ρ → Bool) (linep : IrqLine η ρ σ) (irq : Int) : Int × List (η × Bool) :=
  invokeLoop handle linep irq linep.handlers esrch

def irqInitializeManager (ctrlr : Fin nrIrqs → Option (IrqCtrlr σ)) (hw : σ) : IrqManage η ρ σ := ⟨fun i => ⟨0,0,[],ctrlr i⟩,hw⟩

inductive Call (η ρ : Type) where
  | register (mem : Bool) (irq : Int) (attr prio : BitVec 32) (priv : ρ) (handler : Option η)
  | unregister (irq : Int) (handler : Option η)

def step [DecidableEq η] : Call η ρ → IrqManage η ρ σ → Except Fault (Int × IrqManage η ρ σ)
  | .register mem irq attr prio priv handler,s => .ok (irqRegisterHandler mem irq attr prio priv handler s)
  | .unregister irq handler,s => irqUnregisterHandler irq handler s

inductive Runs [DecidableEq η] (allowed : IrqManage η ρ σ → Call η ρ → Prop) (s₀ : IrqManage η ρ σ) : IrqManage η ρ σ → Prop where
  | start : Runs allowed s₀ s₀
  | call {s s' : IrqManage η ρ σ} {c : Call η ρ} {rc : Int} (before : Runs allowed s₀ s) (may : allowed s c)
      (next : step c s = .ok (rc,s')) : Runs allowed s₀ s'

theorem runsInvariant [DecidableEq η] {allowed : IrqManage η ρ σ → Call η ρ → Prop} {s₀ s} {P : IrqManage η ρ σ → Prop}
    (start : P s₀) (keep : ∀ s c rc s', P s → allowed s c → step c s = .ok (rc,s') → P s') (runs : Runs allowed s₀ s) : P s := by
  induction runs with
  | start => exact start
  | call _ may next ih => exact keep _ _ _ _ ih may next

end Functions

section Steps

@[simp] theorem setSelf (i : Fin nrIrqs) (linep : IrqLine η ρ σ) : (s.set i linep).irqs i = linep := by simp [IrqManage.set]

@[simp] theorem setOther {i j} (other : j ≠ i) (linep : IrqLine η ρ σ) : (s.set i linep).irqs j = s.irqs j := by
  simp [IrqManage.set,other]

@[simp] theorem setHw (i : Fin nrIrqs) (linep : IrqLine η ρ σ) : (s.set i linep).hw = s.hw := rfl

structure Passes (s : IrqManage η ρ σ) (irq : Int) (attr : BitVec 32) (i : Fin nrIrqs) (ctrlr : IrqCtrlr σ)
    (configIrq : Nat → BitVec 32 → BitVec 32 → σ → Int × σ) : Prop where
  line : lineOf irq = some i
  nesting : attr &&& irqAttrNonNestable = 0 → (s.irqs i).attr &&& irqAttrNonNestable = 0
  alone : attr &&& irqAttrExclusive ≠ 0 → (s.irqs i).handlers = []
  found : (s.irqs i).ctrlrp = some ctrlr
  config : ctrlr.configIrq = some configIrq

theorem maskedBits (attr : BitVec 32) : attr &&& irqAttrHandlerMask &&& irqAttrNonNestable = attr &&& irqAttrNonNestable ∧
    attr &&& irqAttrHandlerMask &&& irqAttrExclusive = attr &&& irqAttrExclusive := by
  have first : irqAttrHandlerMask &&& irqAttrNonNestable = irqAttrNonNestable := by decide
  have second : irqAttrHandlerMask &&& irqAttrExclusive = irqAttrExclusive := by decide
  rw [BitVec.and_assoc,BitVec.and_assoc,first,second]
  exact ⟨rfl,rfl⟩

theorem registerCases (ok : irqRegisterHandler mem irq attr prio priv handler s = (rc,s')) :
    rc ≠ 0 ∧ s' = s ∨ ∃ i ctrlr configIrq, Passes s irq attr i ctrlr configIrq ∧
      configureLine configIrq ctrlr i attr prio ⟨handler,priv,attr⟩ s = (rc,s') ∧ mem = true := by
  unfold irqRegisterHandler at ok
  split at ok
  · cases ok
    exact Or.inl ⟨by decide,rfl⟩
  rename_i i line
  dsimp only at ok
  rw [(maskedBits attr).1,(maskedBits attr).2] at ok
  split at ok
  · cases ok
    exact Or.inl ⟨by decide,rfl⟩
  rename_i nesting
  split at ok
  · cases ok
    exact Or.inl ⟨by decide,rfl⟩
  rename_i alone
  split at ok
  · cases ok
    exact Or.inl ⟨by decide,rfl⟩
  rename_i ctrlr found
  split at ok
  · cases ok
    exact Or.inl ⟨by decide,rfl⟩
  rename_i configIrq config
  split at ok
  · rename_i enough
    refine Or.inr ⟨i,ctrlr,configIrq,⟨line,fun none => ?_,fun asked => ?_,found,config⟩,ok,enough⟩
    · by_contra some
      exact nesting ⟨none,some⟩
    · by_contra some
      exact alone ⟨asked,by simpa using some⟩
  · cases ok
    exact Or.inl ⟨by decide,rfl⟩

theorem configureCases {configIrq ctrlr i ent}
    (ok : configureLine configIrq ctrlr i attr prio ent s = (rc,s')) :
    rc = (configIrq i attr prio s.hw).1 ∧ rc ≠ 0 ∧
      s' = {s.set i {s.irqs i with attr := attr, prio := prio} with hw := (configIrq i attr prio s.hw).2} ∨
    rc = 0 ∧ ∃ hw, hw = (if (s.irqs i).handlers.isEmpty then ctrlr.enableIrq i (configIrq i attr prio s.hw).2 else
      (configIrq i attr prio s.hw).2) ∧
      s' = {s.set i {s.irqs i with attr := attr, prio := prio, handlers := (s.irqs i).handlers ++ [ent]} with hw := hw} := by
  unfold configureLine at ok
  dsimp only at ok
  split at ok
  · rename_i fails
    cases ok
    exact Or.inl ⟨rfl,fails,rfl⟩
  · cases ok
    exact Or.inr ⟨rfl,_,rfl,rfl⟩

def Accepted (s : IrqManage η ρ σ) (mem : Bool) (irq : Int) (attr prio : BitVec 32) (i : Fin nrIrqs) : Prop :=
  mem = true ∧ ∃ ctrlr configIrq, Passes s irq attr i ctrlr configIrq ∧ (configIrq i attr prio s.hw).1 = 0

theorem passesRegister {i ctrlr configIrq} (passes : Passes s irq attr i ctrlr configIrq) :
    irqRegisterHandler true irq attr prio priv handler s = configureLine configIrq ctrlr i attr prio ⟨handler,priv,attr⟩ s := by
  have nesting : ¬ (attr &&& irqAttrNonNestable = 0 ∧ (s.irqs i).attr &&& irqAttrNonNestable ≠ 0) := fun both => both.2 (passes.nesting both.1)
  have alone : ¬ (attr &&& irqAttrExclusive ≠ 0 ∧ (s.irqs i).handlers.isEmpty = false) := fun both => by
    rw [passes.alone both.1] at both
    cases both.2
  rw [irqRegisterHandler,passes.line]
  dsimp only
  rw [(maskedBits attr).1,(maskedBits attr).2,if_neg nesting,if_neg alone,passes.found]
  dsimp only
  rw [passes.config]
  rfl

theorem acceptedIff {Q : Fin nrIrqs → Prop} (ok : irqRegisterHandler mem irq attr prio priv handler s = (rc,s')) :
    (∃ i, Accepted s mem irq attr prio i ∧ Q i) ↔ rc = 0 ∧ ∃ i, lineOf irq = some i ∧ Q i := by
  constructor
  · rintro ⟨i,⟨rfl,ctrlr,configIrq,passes,zero⟩,holds⟩
    rw [passesRegister passes] at ok
    rcases configureCases ok with ⟨code,fails,_⟩ | ⟨code,_⟩
    · exact absurd (code.trans zero) fails
    · exact ⟨code,i,passes.line,holds⟩
  · rintro ⟨rfl,i,line,holds⟩
    rcases registerCases ok with ⟨fails,_⟩ | ⟨j,ctrlr,configIrq,passes,done,enough⟩
    · exact absurd rfl fails
    cases passes.line.symm.trans line
    refine ⟨i,⟨enough,ctrlr,configIrq,passes,?_⟩,holds⟩
    by_contra fails
    rw [configureLine] at done
    dsimp only at done
    rw [if_pos fails] at done
    exact fails (congrArg Prod.fst done)

variable [DecidableEq η]

theorem unregisterCases (ok : irqUnregisterHandler irq handler s = .ok (rc,s')) :
    s' = s ∨ ∃ i entp rest, lineOf irq = some i ∧ rest = (s.irqs i).handlers.eraseP (fun entp => entp.handler = handler) ∧
      entp ∈ (s.irqs i).handlers ∧ entp.handler = handler ∧
      (rest ≠ [] ∧ s' = s.set i {s.irqs i with handlers := rest} ∨
        rest = [] ∧ ∃ ctrlr, (s.irqs i).ctrlrp = some ctrlr ∧
          s' = {s.set i {s.irqs i with handlers := rest} with hw := ctrlr.disableIrq i s.hw}) := by
  unfold irqUnregisterHandler at ok
  split at ok
  · cases ok
    exact Or.inl rfl
  rename_i i line
  dsimp only at ok
  split at ok
  · rename_i found
    obtain ⟨entp,member,same⟩ := List.any_eq_true.mp found
    refine Or.inr ⟨i,entp,_,line,rfl,member,of_decide_eq_true same,?_⟩
    split at ok
    · rename_i empty
      split at ok
      · cases ok
      · rename_i ctrlr known
        cases ok
        exact Or.inr ⟨List.isEmpty_iff.mp empty,ctrlr,known,rfl⟩
    · rename_i more
      cases ok
      exact Or.inl ⟨fun none => more (by rw [none]; rfl),rfl⟩
  · cases ok
    exact Or.inl rfl

end Steps

section Lines

def exclusive (entp : IrqHandlerEnt η ρ) : Prop := entp.asked &&& irqAttrExclusive ≠ 0
def nonNestable (entp : IrqHandlerEnt η ρ) : Prop := entp.asked &&& irqAttrNonNestable ≠ 0

def Alone (linep : IrqLine η ρ σ) : Prop := ∀ entp ∈ linep.handlers, exclusive entp → linep.handlers = [entp]

def Calm (linep : IrqLine η ρ σ) : Prop := (∃ entp ∈ linep.handlers, nonNestable entp) →
  ∀ handle irq, ∀ call ∈ (invokeIrqHandler handle linep irq).2, call.2 = false

def Joins (s : IrqManage η ρ σ) : Call η ρ → Prop
  | .register mem irq attr prio _ _ => ∃ i, Accepted s mem irq attr prio i ∧
      attr &&& irqAttrExclusive = 0 ∧ ∃ entp ∈ (s.irqs i).handlers, exclusive entp
  | .unregister _ _ => False

def Marked (linep : IrqLine η ρ σ) : Prop := (∃ entp ∈ linep.handlers, nonNestable entp) → linep.attr &&& irqAttrNonNestable ≠ 0

theorem markedCalm {linep : IrqLine η ρ σ} (marked : Marked linep) : Calm linep := by
  intro some handle irq
  have attr := marked some
  have loop : ∀ entps rc, ∀ call ∈ (invokeLoop handle linep irq entps rc).2, call.2 = false := by
    intro entps
    induction entps with
    | nil =>
      intro rc call member
      cases member
    | cons entp rest ih =>
      intro rc call member
      unfold invokeLoop at member
      split at member
      · exact ih rc call member
      · rcases List.mem_cons.mp member with rfl | later
        · exact decide_eq_false attr
        · exact ih _ call later
  exact loop linep.handlers esrch

theorem registerLines {P : Fin nrIrqs → IrqLine η ρ σ → Prop} (all : ∀ i, P i (s.irqs i))
    (ok : irqRegisterHandler mem irq attr prio priv handler s = (rc,s'))
    (refused : ∀ i ctrlr configIrq, Passes s irq attr i ctrlr configIrq → P i {s.irqs i with attr := attr, prio := prio})
    (added : ∀ i ctrlr configIrq, Passes s irq attr i ctrlr configIrq → rc = 0 →
      P i {s.irqs i with attr := attr, prio := prio, handlers := (s.irqs i).handlers ++ [⟨handler,priv,attr⟩]}) : ∀ i, P i (s'.irqs i) := by
  rcases registerCases ok with ⟨_,rfl⟩ | ⟨i,ctrlr,configIrq,passes,done,-⟩
  · exact all
  intro j
  by_cases here : j = i
  · subst here
    rcases configureCases done with ⟨_,_,rfl⟩ | ⟨zero,hw,_,rfl⟩
    · simpa using refused j ctrlr configIrq passes
    · simpa using added j ctrlr configIrq passes zero
  · rcases configureCases done with ⟨_,_,rfl⟩ | ⟨_,hw,_,rfl⟩
    · simpa [here] using all j
    · simpa [here] using all j

theorem unregisterLines [DecidableEq η] {P : Fin nrIrqs → IrqLine η ρ σ → Prop} (all : ∀ i, P i (s.irqs i))
    (ok : irqUnregisterHandler irq handler s = .ok (rc,s'))
    (fewer : ∀ i, P i {s.irqs i with handlers := (s.irqs i).handlers.eraseP (fun entp => entp.handler = handler)}) : ∀ i, P i (s'.irqs i) := by
  rcases unregisterCases ok with rfl | ⟨i,_,rest,_,rfl,_,_,done⟩
  · exact all
  intro j
  by_cases here : j = i
  · subst here
    rcases done with ⟨_,rfl⟩ | ⟨_,ctrlr,_,rfl⟩
    · simpa using fewer j
    · simpa using fewer j
  · rcases done with ⟨_,rfl⟩ | ⟨_,ctrlr,_,rfl⟩
    · simpa [here] using all j
    · simpa [here] using all j

theorem registerMarked (marked : ∀ i, Marked (s.irqs i)) (ok : irqRegisterHandler mem irq attr prio priv handler s = (rc,s')) :
    ∀ i, Marked (s'.irqs i) := by
  have kept : ∀ i ctrlr configIrq, Passes s irq attr i ctrlr configIrq → (∃ entp ∈ (s.irqs i).handlers, nonNestable entp) →
      attr &&& irqAttrNonNestable ≠ 0 := fun i ctrlr configIrq passes some none => marked i some (passes.nesting none)
  refine registerLines (P := fun _ => Marked) marked ok kept fun i ctrlr configIrq passes _ => ?_
  rintro ⟨entp,member,asked⟩
  rcases List.mem_append.mp member with old | new
  · exact kept i ctrlr configIrq passes ⟨entp,old,asked⟩
  · rw [List.mem_singleton] at new
    subst new
    exact asked

theorem unregisterMarked [DecidableEq η] (marked : ∀ i, Marked (s.irqs i)) (ok : irqUnregisterHandler irq handler s = .ok (rc,s')) :
    ∀ i, Marked (s'.irqs i) := by
  refine unregisterLines (P := fun _ => Marked) marked ok fun i => ?_
  rintro ⟨entp,member,asked⟩
  exact marked i ⟨entp,List.mem_of_mem_eraseP member,asked⟩

theorem addedAlone {linep : IrqLine η ρ σ} {ent} (empty : exclusive ent → linep.handlers = []) :
    Alone {linep with attr := attr, prio := prio, handlers := linep.handlers ++ [ent]} ↔
      ¬ (¬ exclusive ent ∧ ∃ entp ∈ linep.handlers, exclusive entp) := by
  constructor
  · rintro alone ⟨_,entp,member,asked⟩
    have single := congrArg List.length (alone entp (List.mem_append_left _ member) asked)
    have some := List.length_pos_of_mem member
    rw [List.length_append,List.length_singleton,List.length_singleton] at single
    omega
  · intro none entp member asked
    rcases List.mem_append.mp member with old | new
    · have shared : exclusive ent := by
        by_contra other
        exact none ⟨other,entp,old,asked⟩
      rw [empty shared] at old
      cases old
    · rw [List.mem_singleton] at new
      subst new
      exact congrArg (· ++ [entp]) (empty asked)

theorem registerAlone (alone : ∀ i, Alone (s.irqs i)) (ok : irqRegisterHandler mem irq attr prio priv handler s = (rc,s')) :
    (∀ i, Alone (s'.irqs i)) ↔ ¬ Joins s (.register mem irq attr prio priv handler) := by
  have mine : ∀ i ctrlr configIrq, Passes s irq attr i ctrlr configIrq →
      (Alone {s.irqs i with attr := attr, prio := prio, handlers := (s.irqs i).handlers ++ [⟨handler,priv,attr⟩]} ↔
        ¬ (attr &&& irqAttrExclusive = 0 ∧ ∃ entp ∈ (s.irqs i).handlers, exclusive entp)) := by
    intro i ctrlr configIrq passes
    have empty : exclusive (⟨handler,priv,attr⟩ : IrqHandlerEnt η ρ) → (s.irqs i).handlers = [] := passes.alone
    rw [addedAlone empty,exclusive,not_not]
  rw [Joins,acceptedIff ok]
  constructor
  · rintro all ⟨zero,i,line,shared,some⟩
    rcases registerCases ok with ⟨fails,_⟩ | ⟨j,ctrlr,configIrq,passes,done,-⟩
    · exact fails zero
    rw [passes.line] at line
    cases line
    rcases configureCases done with ⟨_,fails,_⟩ | ⟨_,hw,_,rfl⟩
    · exact fails zero
    · have here := all i
      simp only [setSelf] at here
      exact (mine i ctrlr configIrq passes).mp here ⟨shared,some⟩
  · intro apart
    refine registerLines (P := fun _ => Alone) alone ok (fun i _ _ _ => alone i) fun i ctrlr configIrq passes zero => ?_
    exact (mine i ctrlr configIrq passes).mpr fun both => apart ⟨zero,i,passes.line,both⟩

theorem unregisterAlone [DecidableEq η] (alone : ∀ i, Alone (s.irqs i)) (ok : irqUnregisterHandler irq handler s = .ok (rc,s')) :
    ∀ i, Alone (s'.irqs i) := by
  refine unregisterLines (P := fun _ => Alone) alone ok fun i entp member asked => ?_
  have single := alone i entp (List.mem_of_mem_eraseP member) asked
  dsimp only at member ⊢
  rw [single] at member ⊢
  cases same : decide (entp.handler = handler) with
  | true => simp [of_decide_eq_true same] at member
  | false => simp [of_decide_eq_false same]

theorem exclusiveStaysAlone [DecidableEq η] (ctrlr : Fin nrIrqs → Option (IrqCtrlr σ)) (hw : σ) :
    (∀ s : IrqManage η ρ σ, Runs (fun s c => ¬ Joins s c) (irqInitializeManager ctrlr hw) s → ∀ i, Alone (s.irqs i)) ∧
    (∀ (s s' : IrqManage η ρ σ) c rc, (∀ i, Alone (s.irqs i)) → step c s = .ok (rc,s') → ((∀ i, Alone (s'.irqs i)) ↔ ¬ Joins s c)) ∧
    ∀ s : IrqManage η ρ σ, Runs (fun _ _ => True) (irqInitializeManager ctrlr hw) s → ∀ i, Calm (s.irqs i) := by
  have one : ∀ (s s' : IrqManage η ρ σ) c rc, (∀ i, Alone (s.irqs i)) → step c s = .ok (rc,s') →
    ((∀ i, Alone (s'.irqs i)) ↔ ¬ Joins s c) := by
    intro s s' c rc alone next
    cases c with
    | register mem irq attr prio priv handler => exact registerAlone alone (Except.ok.inj next)
    | unregister irq handler => exact iff_of_true (unregisterAlone alone next) not_false
  refine ⟨fun s => runsInvariant (fun i entp member => absurd member List.not_mem_nil) fun s c rc s' alone apart next =>
    (one s s' c rc alone next).mpr apart,one,fun s runs i => markedCalm ?_⟩
  refine runsInvariant (P := fun s => ∀ i, Marked (s.irqs i)) (fun i some => ?_) (fun s c rc s' marked _ next => ?_) runs i
  · obtain ⟨_,member,_⟩ := some
    cases member
  · cases c with
    | register mem irq attr prio priv handler => exact registerMarked marked (Except.ok.inj next)
    | unregister irq handler => exact unregisterMarked marked next

end Lines

def plainCtrlr : IrqCtrlr Unit := ⟨some fun _ _ _ _ => (0,()),fun _ _ => (),fun _ _ => ()⟩
def plainStart : IrqManage Nat Unit Unit := irqInitializeManager (fun _ => some plainCtrlr) ()
def afterExclusive : IrqManage Nat Unit Unit := (irqRegisterHandler true 5 irqAttrExclusive 0 () (some 1) plainStart).2
def afterShared : IrqManage Nat Unit Unit := (irqRegisterHandler true 5 0 0 () (some 2) afterExclusive).2

theorem firstIsAlone : (afterExclusive.irqs 5).handlers.map (·.handler) = [some 1] ∧ Alone (afterExclusive.irqs 5) ∧
    Calm (afterExclusive.irqs 5) := by
  have next : step (.register true 5 irqAttrExclusive 0 () (some 1)) plainStart = .ok (0,afterExclusive) := rfl
  have apart : ¬ Joins plainStart (.register true 5 irqAttrExclusive 0 () (some 1)) := by
    rintro ⟨_,_,shared,_⟩
    exact absurd shared (by decide)
  obtain ⟨alone,_,calm⟩ := exclusiveStaysAlone (η := Nat) (ρ := Unit) (fun _ => some plainCtrlr) ()
  exact ⟨by decide,alone _ (.call .start apart next) 5,calm _ (.call .start trivial next) 5⟩

theorem sharedJoinsExclusive : step (.register true 5 irqAttrExclusive 0 () (some 1)) plainStart = .ok (0,afterExclusive) ∧
    step (.register true 5 0 0 () (some 2)) afterExclusive = .ok (0,afterShared) ∧
    (afterShared.irqs 5).handlers.map (fun entp => (entp.handler,entp.asked)) = [(some 1,irqAttrExclusive),(some 2,0)] ∧
    ¬ Alone (afterShared.irqs 5) := by
  refine ⟨rfl,rfl,by decide,fun alone => ?_⟩
  have single := congrArg List.length (alone ⟨some 1,(),irqAttrExclusive⟩ List.mem_cons_self (by unfold exclusive; decide))
  cases single

end TskSw.Irq
