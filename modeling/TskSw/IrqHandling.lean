import Mathlib.Data.List.TakeWhile
import TskSw.Irq
import TskSw.Interrupts

/-! `irq_handle_irq` of `kern/irq.c` with the interrupts that come while its handlers run. The
lines and the finders stay as they are. A handler is any code; what it does to the mask of
the controller and whether it takes the interrupt is up to it. -/
namespace TskSw.IrqHandling
open Interrupts
open Irq (nrIrqs IrqHandlerEnt irqAttrNonNestable)
open BlkIo (Fault)

def irqHandled : Int := 0

structure Cpu (σ : Type) where
  ie : Bool
  ctl : σ

structure Ctrlr (σ : Type) where
  enableIrq : Option (Nat → σ → σ)
  disableIrq : Option (Nat → σ → σ)
  getPriority : Option (σ → BitVec 32)
  setPriority : Option (BitVec 32 → σ → σ)
  eoi : Option (Nat → σ → σ)

structure Line (η ρ σ : Type) where
  attr : BitVec 32
  prio : BitVec 32
  handlers : List (IrqHandlerEnt η ρ)
  ctrlrp : Option (Ctrlr σ)

structure Invocation (η ρ ξ : Type) where
  handler : η
  irq : Fin nrIrqs
  exc : ξ
  priv : ρ

abbrev Handling (η ρ ξ σ : Type) := Code (Cpu σ) (Invocation η ρ ξ) Fault

abbrev Finder (ξ σ : Type) := Option (ξ → σ → Option (Fin nrIrqs) × σ)

variable {η ρ ξ σ α : Type} {s : Cpu σ} {exc : ξ} {lines : Fin nrIrqs → Line η ρ σ} {findIrqs : List (Finder ξ σ)}

section Functions

def savePsw : Handling η ρ ξ σ Bool := exec fun s => (s.ie,s)
def pswEnableInterrupt : Handling η ρ ξ σ Unit := modify fun s => {s with ie := true}
def pswDisableInterrupt : Handling η ρ ξ σ Unit := modify fun s => {s with ie := false}
def pswRestoreInterrupt (psw : Bool) : Handling η ρ ξ σ Unit := modify fun s => {s with ie := psw}

def pswDisableAndSaveInterrupt : Handling η ρ ξ σ Bool := do
  let psw ← savePsw
  pswDisableInterrupt
  pure psw

def onCtl (f : σ → σ) : Handling η ρ ξ σ Unit := modify fun s => {s with ctl := f s.ctl}
def fromCtl (f : σ → α × σ) : Handling η ρ ξ σ α := exec fun s => ((f s.ctl).1,{s with ctl := (f s.ctl).2})

def pointed : Option α → Handling η ρ ξ σ α
  | some f => pure f
  | none => stop .nullPointer

def enableNesting (attr : BitVec 32) : Handling η ρ ξ σ Unit := if attr &&& irqAttrNonNestable = 0 then pswEnableInterrupt else pure ()

def invokeHandlers (attr : BitVec 32) (irq : Fin nrIrqs) (exc : ξ) : List (IrqHandlerEnt η ρ) → Int → Handling η ρ ξ σ Int
  | [],rc => pure rc
  | entp :: rest,rc =>
    match entp.handler with
    | none => invokeHandlers attr irq exc rest rc
    | some handler => do
        enableNesting attr
        let isHandled ← invoke ⟨handler,irq,exc,entp.priv⟩
        pswDisableInterrupt
        invokeHandlers attr irq exc rest (if isHandled = irqHandled then 0 else rc)

def invokeIrqHandler (linep : Line η ρ σ) (irq : Fin nrIrqs) (exc : ξ) : Handling η ρ ξ σ Int := do
  let psw ← pswDisableAndSaveInterrupt
  let rc ← invokeHandlers linep.attr irq exc linep.handlers esrch
  pswRestoreInterrupt psw
  pure rc

def uninterrupted (answers : Invocation η ρ ξ → Int) : Handling η ρ ξ σ α → Cpu σ →
    Option (α × Cpu σ × List (Invocation η ρ ξ × Bool))
  | .done a,s => some (a,s,[])
  | .act f k,s => uninterrupted answers (k s) (f s)
  | .any _,_ | .fail _,_ => none
  | .call p k,s => (uninterrupted answers (k (answers p)) s).map fun (a,s',calls) => (a,s',(p,s.ie) :: calls)

def takes (answers : Invocation η ρ ξ → Int) (irq : Fin nrIrqs) (exc : ξ) (handler : η) (_ : Int) (priv : ρ) : Bool :=
  answers ⟨handler,irq,exc,priv⟩ == irqHandled

theorem invokedAlike {τ : Type} {linep : Line η ρ σ} {line : Irq.IrqLine η ρ τ} (answers : Invocation η ρ ξ → Int) (irq exc s)
    (attr : linep.attr = line.attr) (handlers : linep.handlers = line.handlers) :
    ∃ calls, uninterrupted answers (invokeIrqHandler linep irq exc) s =
        some ((Irq.invokeIrqHandler (takes answers irq exc) line irq).1,s,calls) ∧
      calls.map (fun call => (call.1.handler,call.2)) = (Irq.invokeIrqHandler (takes answers irq exc) line irq).2 := by
  have loop : ∀ entps rc, ∃ calls, uninterrupted answers (invokeHandlers linep.attr irq exc entps rc >>= fun rc =>
      pswRestoreInterrupt s.ie >>= fun _ => pure rc) {s with ie := false} =
        some ((Irq.invokeLoop (takes answers irq exc) line irq entps rc).1,s,calls) ∧
      calls.map (fun call => (call.1.handler,call.2)) = (Irq.invokeLoop (takes answers irq exc) line irq entps rc).2 := by
    intro entps
    induction entps with
    | nil => exact fun rc => ⟨[],rfl,rfl⟩
    | cons entp rest ih =>
      intro rc
      obtain ⟨handler,priv,asked⟩ := entp
      cases handler with
      | none => exact ih rc
      | some handler =>
        obtain ⟨calls,ran,same⟩ := ih (if takes answers irq exc handler irq priv then 0 else rc)
        refine ⟨(⟨handler,irq,exc,priv⟩,decide (line.attr &&& irqAttrNonNestable = 0)) :: calls,?_,congrArg (_ :: ·) same⟩
        dsimp only [invokeHandlers,Irq.invokeLoop]
        simp only [takes,beq_iff_eq] at ran ⊢
        rw [enableNesting,attr]
        rw [attr] at ran
        by_cases nest : line.attr &&& irqAttrNonNestable = 0
        · rw [if_pos nest,decide_eq_true nest]
          exact congrArg (Option.map _) ran
        · rw [if_neg nest,decide_eq_false nest]
          exact congrArg (Option.map _) ran
  rw [Irq.invokeIrqHandler,← handlers]
  exact loop linep.handlers esrch

def usable (c : Ctrlr σ) : Bool := (c.disableIrq.isSome || (c.getPriority.isSome && c.setPriority.isSome)) && c.enableIrq.isSome && c.eoi.isSome

def checkCtrlr : Option (Ctrlr σ) → Handling η ρ ξ σ (Ctrlr σ)
  | some c => if usable c then pure c else stop .assertion
  | none => stop .assertion

def sendEoi (c : Ctrlr σ) (irq : Fin nrIrqs) : Handling η ρ ξ σ Unit := do
  let eoi ← pointed c.eoi
  onCtl (eoi irq)

def handleMasked (c : Ctrlr σ) (linep : Line η ρ σ) (irq : Fin nrIrqs) (exc : ξ) : Handling η ρ ξ σ Int :=
  match c.setPriority with
  | none => do
      let disableIrq ← pointed c.disableIrq
      onCtl (disableIrq irq)
      sendEoi c irq
      let rc ← invokeIrqHandler linep irq exc
      let enableIrq ← pointed c.enableIrq
      onCtl (enableIrq irq)
      pure rc
  | some setPriority => do
      let getPriority ← pointed c.getPriority
      let prio ← fromCtl fun s => (getPriority s,s)
      onCtl (setPriority linep.prio)
      sendEoi c irq
      let rc ← invokeIrqHandler linep irq exc
      onCtl (setPriority prio)
      pure rc

-- Nothing is stored in `is_handled` unless a handler took the interrupt.
def handleIrqLine (linep : Line η ρ σ) (irq : Fin nrIrqs) (exc : ξ) : Handling η ρ ξ σ Int := do
  let isHandled ← undefined
  let c ← checkCtrlr linep.ctrlrp
  let psw ← pswDisableAndSaveInterrupt
  let rc ← handleMasked c linep irq exc
  pswRestoreInterrupt psw
  pure (if rc = 0 then 0 else isHandled)

def handlePending (lines : Fin nrIrqs → Line η ρ σ) (exc : ξ) : List (Finder ξ σ) → Int → Handling η ρ ξ σ Int
  | [],isHandled => pure isHandled
  | none :: _,_ => stop .assertion
  | some findPending :: rest,isHandled => do
      let found ← fromCtl (findPending exc)
      match found with
      | none => handlePending lines exc rest isHandled
      | some irq =>
        let rc ← handleIrqLine (lines irq) irq exc
        handlePending lines exc rest (if rc = 0 then 0 else isHandled)

def irqHandleIrq (lines : Fin nrIrqs → Line η ρ σ) (findIrqs : List (Finder ξ σ)) (exc : ξ) : Handling η ρ ξ σ Int := do
  let psw ← pswDisableAndSaveInterrupt
  let isHandled ← handlePending lines exc findIrqs esrch
  pswRestoreInterrupt psw
  pure isHandled

def cpu (lines : Fin nrIrqs → Line η ρ σ) (findIrqs : List (Finder ξ σ)) (body : Invocation η ρ ξ → Handling η ρ ξ σ Int) :
    System (Cpu σ) (Invocation η ρ ξ) ξ Fault where
  trap := irqHandleIrq lines findIrqs
  body := body
  enabled := fun s => s.ie
  enter := fun s => {s with ie := false}
  leave := fun before s => {s with ie := before.ie}

end Functions

section Notes
variable {π : Type}

def took : Note π → Bool
  | .returned _ r => r == irqHandled
  | .undefined _ => false

def isReturned : Note π → Bool
  | .returned _ _ => true
  | .undefined _ => false

def leaked : List (Note π) → Bool
  | [] => false
  | .undefined i :: rest => (i == 0 && !(rest.takeWhile isReturned).any took) || leaked rest
  | .returned _ _ :: rest => leaked rest

def answer (l : List (Note π)) : Int := if l.any took || leaked l then 0 else esrch

variable {l rs : List (Note π)}

theorem leakedReturns (returns : ∀ n ∈ rs, isReturned n = true) : leaked rs = false := by
  induction rs with
  | nil => rfl
  | cons n rs ih =>
    cases n with
    | undefined i => exact absurd (returns _ List.mem_cons_self) Bool.false_ne_true
    | returned p r => exact ih fun n here => returns n (List.mem_cons_of_mem _ here)

theorem takeWhileStops {n} (other : isReturned n = false) : (l ++ n :: rs).takeWhile isReturned = l.takeWhile isReturned := by
  induction l with
  | nil => simp [other]
  | cons m l ih => simp [List.takeWhile_cons,ih]

theorem leakedLine (returns : ∀ n ∈ rs, isReturned n = true) (i) :
    leaked (l ++ .undefined i :: rs) = (leaked l || (i == 0 && !rs.any took)) := by
  induction l with
  | nil =>
    have all : rs.takeWhile isReturned = rs := List.takeWhile_eq_self_iff.mpr returns
    simp [leaked,leakedReturns returns,all]
  | cons n l ih =>
    cases n with
    | undefined j =>
      have same : (l ++ .undefined i :: rs).takeWhile isReturned = l.takeWhile isReturned := takeWhileStops rfl
      simp only [List.cons_append,leaked,same,ih,Bool.or_assoc]
    | returned p r => exact ih

theorem answerLine (returns : ∀ n ∈ rs, isReturned n = true) (i) :
    answer (l ++ .undefined i :: rs) = if (if rs.any took then 0 else i) = 0 then 0 else answer l := by
  simp only [answer,leakedLine returns,List.any_append,List.any_cons,took]
  cases rs.any took <;> cases l.any took <;> cases leaked l <;> by_cases zero : i = 0 <;> simp [zero]

end Notes

variable {rc : Int} {irq : Fin nrIrqs} {β : Type}

section Specs

structure Lawful (R : σ → σ → Prop) (level : σ → Prop) (irq : Nat) (prio : BitVec 32) (c : Ctrlr σ) : Prop where
  sends : ∀ eoi ∈ c.eoi, ∀ s, R s (eoi irq s)
  disables : c.setPriority = none → ∀ disableIrq ∈ c.disableIrq, ∀ s, R s (disableIrq irq s)
  enables : c.setPriority = none → ∀ enableIrq ∈ c.enableIrq, ∀ s, R s (enableIrq irq s)
  sets : ∀ setPriority ∈ c.setPriority, ∀ p s s', R s s' → R (setPriority p s) (setPriority p s')
  overwrites : ∀ setPriority ∈ c.setPriority, ∀ p q s, R (setPriority p (setPriority q s)) (setPriority p s)
  restores : ∀ setPriority ∈ c.setPriority, ∀ getPriority ∈ c.getPriority, ∀ s, R (setPriority (getPriority s) s) s
  opens : ∀ setPriority ∈ c.setPriority, ∀ s, level (setPriority prio s)
  free : c.setPriority = none → ∀ s, level s

structure Rules (R : σ → σ → Prop) (level : Fin nrIrqs → σ → Prop) (lines : Fin nrIrqs → Line η ρ σ)
    (findIrqs : List (Finder ξ σ)) : Prop where
  equiv : Equivalence R
  stable : ∀ irq s s', R s s' → level irq s → level irq s'
  finds : ∀ findPending, some findPending ∈ findIrqs → ∀ exc s, R s (findPending exc s).2
  lawful : ∀ irq, ∀ c ∈ (lines irq).ctrlrp, Lawful R (level irq) irq (lines irq).prio c

variable {R : σ → σ → Prop}

def logic (equiv : Equivalence R) (level : Fin nrIrqs → σ → Prop) (during : Invocation η ρ ξ → Cpu σ → Cpu σ → Prop) :
    Logic (Cpu σ) (Invocation η ρ ξ) where
  keeps := fun s s' => s'.ie = s.ie ∧ R s.ctl s'.ctl
  refl := fun s => ⟨rfl,equiv.refl s.ctl⟩
  trans := fun first second => ⟨second.1.trans first.1,equiv.trans first.2 second.2⟩
  pre := fun p s => level p.irq s.ctl
  during := during
  post := fun _ s _ s' => R s.ctl s'.ctl
  trapPost := fun s r s' l => s'.ie = s.ie ∧ R s.ctl s'.ctl ∧ r = answer l

variable {equiv : Equivalence R} {level : Fin nrIrqs → σ → Prop} {during : Invocation η ρ ξ → Cpu σ → Cpu σ → Prop}
  {l : List (Note (Invocation η ρ ξ))}

abbrev Does (equiv : Equivalence R) (level : Fin nrIrqs → σ → Prop) (during : Invocation η ρ ξ → Cpu σ → Cpu σ → Prop)
    (x : Handling η ρ ξ σ α)
    (Q : α → Cpu σ → List (Note (Invocation η ρ ξ)) → Prop) (s : Cpu σ) (l : List (Note (Invocation η ρ ξ))) : Prop :=
  wp (logic equiv level during) (fun s => s.ie) (fun _ => True) x Q s l

theorem doesPure {a} {Q : α → Cpu σ → List (Note (Invocation η ρ ξ)) → Prop} (off : s.ie = false) (h : Q a s l) :
    Does equiv level during (pure a) Q s l := by
  intro s' later
  rw [laterOff off later]
  exact ⟨trivial,h⟩

theorem doesExec {f : Cpu σ → α × Cpu σ} {Q : α → Cpu σ → List (Note (Invocation η ρ ξ)) → Prop} (off : s.ie = false)
    (still : (f s).2.ie = false)
    (h : Q (f s).1 (f s).2 l) : Does equiv level during (exec f) Q s l := by
  intro s' later
  rw [laterOff off later]
  exact ⟨trivial,doesPure still h⟩

theorem doesPointed {f : Option α} {Q : α → Cpu σ → List (Note (Invocation η ρ ξ)) → Prop} (off : s.ie = false)
    (h : ∀ g ∈ f, Q g s l) :
    Does equiv level during (pointed f) Q s l := by
  cases f with
  | none => exact fun _ _ => trivial
  | some g => exact doesPure off (h g rfl)

theorem doesCheck {ctrlrp : Option (Ctrlr σ)} {Q : Ctrlr σ → Cpu σ → List (Note (Invocation η ρ ξ)) → Prop} (off : s.ie = false)
    (h : ∀ c ∈ ctrlrp, Q c s l) : Does equiv level during (checkCtrlr ctrlrp) Q s l := by
  cases ctrlrp with
  | none => exact fun _ _ => trivial
  | some c =>
    simp only [checkCtrlr]
    split
    · exact doesPure off (h c rfl)
    · exact fun _ _ => trivial

theorem doesDisable : Does equiv level during pswDisableInterrupt (fun _ s' l' => s'.ie = false ∧ R s.ctl s'.ctl ∧ l' = l) s l := by
  intro s₁ first
  refine ⟨trivial,fun s₂ second => ?_⟩
  rw [laterOff rfl second]
  exact ⟨trivial,rfl,(laterKeeps first).2,rfl⟩

theorem doesEnable {attr} (off : s.ie = false) :
    Does equiv level during (enableNesting attr) (fun _ s' l' => R s.ctl s'.ctl ∧ l' = l) s l := by
  unfold enableNesting
  split
  · intro s₁ first
    rw [laterOff off first]
    exact ⟨trivial,fun s₂ second => ⟨trivial,(laterKeeps second).2,rfl⟩⟩
  · exact doesPure off ⟨equiv.refl _,rfl⟩

theorem doesInvoke {p : Invocation η ρ ξ} (stable : ∀ s s', R s s' → level p.irq s → level p.irq s') (open_ : level p.irq s.ctl) :
    Does equiv level during (invoke p) (fun r s' l' => R s.ctl s'.ctl ∧ l' = l ++ [.returned p r]) s l := by
  intro s₁ first
  refine ⟨trivial,stable _ _ (laterKeeps first).2 open_,fun r s₂ second s₃ third => ⟨trivial,?_,rfl⟩⟩
  exact equiv.trans (laterKeeps first).2 (equiv.trans second (laterKeeps third).2)

theorem doesSave : Does equiv level during pswDisableAndSaveInterrupt
    (fun psw s' l' => psw = s.ie ∧ s'.ie = false ∧ R s.ctl s'.ctl ∧ l' = l) s l := by
  refine wpBind fun s₁ first => ⟨trivial,fun s₂ second => ⟨trivial,?_⟩⟩
  refine wpSeq doesDisable ?_
  rintro _ s₃ l' ⟨off,third,rfl⟩
  have keeps := (logic equiv level during).trans (laterKeeps first) (laterKeeps second)
  exact doesPure off ⟨(laterKeeps first).1,off,equiv.trans keeps.2 third,rfl⟩

theorem doesRestore {psw} (off : s.ie = false) : Does equiv level during (pswRestoreInterrupt psw)
    (fun _ s' l' => s'.ie = psw ∧ R s.ctl s'.ctl ∧ l' = l) s l := by
  intro s₁ first
  rw [laterOff off first]
  refine ⟨trivial,fun s₂ second => ⟨trivial,?_⟩⟩
  exact ⟨(laterKeeps second).1,(laterKeeps second).2,rfl⟩

def Returns (l l' : List (Note (Invocation η ρ ξ))) (rc rc' : Int) : Prop :=
  ∃ rs, l' = l ++ rs ∧ (∀ n ∈ rs, isReturned n = true) ∧ rc' = if rs.any took then 0 else rc

theorem returnsNil : Returns l l rc rc := ⟨[],(List.append_nil l).symm,fun _ here => absurd here List.not_mem_nil,rfl⟩

theorem returnsCons {p : Invocation η ρ ξ} {l' : List (Note (Invocation η ρ ξ))} {r rc' : Int}
    (h : Returns (l ++ [.returned p r]) l' (if r = irqHandled then 0 else rc) rc') : Returns l l' rc rc' := by
  obtain ⟨rs,rfl,returns,rfl⟩ := h
  refine ⟨.returned p r :: rs,by simp,?_,?_⟩
  · intro n here
    rcases List.mem_cons.mp here with rfl | here
    · rfl
    · exact returns n here
  · by_cases handled : r = irqHandled
    · simp [took,handled]
    · simp [took,handled]

theorem doesHandlers {attr irq} (stable : ∀ s s', R s s' → level irq s → level irq s')
    (entps) {rc} (off : s.ie = false) (open_ : level irq s.ctl) :
    Does equiv level during (invokeHandlers attr irq exc entps rc)
      (fun rc' s' l' => s'.ie = false ∧ R s.ctl s'.ctl ∧ Returns l l' rc rc') s l := by
  induction entps generalizing rc s l with
  | nil => exact doesPure off ⟨off,equiv.refl _,returnsNil⟩
  | cons entp rest ih =>
    obtain ⟨handler,priv,asked⟩ := entp
    cases handler with
    | none => exact ih off open_
    | some handler =>
      refine wpSeq (doesEnable off) ?_
      rintro _ s₁ l₁ ⟨first,rfl⟩
      refine wpSeq (doesInvoke stable (stable _ _ first open_)) ?_
      rintro r s₂ l₂ ⟨second,rfl⟩
      refine wpSeq doesDisable ?_
      rintro _ s₃ l₃ ⟨off,third,rfl⟩
      have same := equiv.trans first (equiv.trans second third)
      refine wpMono (ih off (stable _ _ same open_)) ?_
      rintro rc' s₄ l₄ ⟨off,fourth,returns⟩
      exact ⟨off,equiv.trans same fourth,returnsCons returns⟩

theorem doesInvokeIrqHandler {linep irq} (stable : ∀ s s', R s s' → level irq s → level irq s') (off : s.ie = false)
    (open_ : level irq s.ctl) : Does equiv level during (invokeIrqHandler linep irq exc)
      (fun rc s' l' => s'.ie = false ∧ R s.ctl s'.ctl ∧ Returns l l' esrch rc) s l := by
  refine wpSeq doesSave ?_
  rintro psw s₁ l₁ ⟨saved,off₁,first,rfl⟩
  refine wpSeq (doesHandlers stable linep.handlers off₁ (stable _ _ first open_)) ?_
  rintro rc s₂ l₂ ⟨off₂,second,returns⟩
  refine wpSeq (doesRestore off₂) ?_
  rintro _ s₃ l₃ ⟨restored,third,rfl⟩
  rw [saved,off] at restored
  exact doesPure restored ⟨restored,equiv.trans first (equiv.trans second third),returns⟩

theorem doesOnCtl {f} (off : s.ie = false) : Does equiv level during (onCtl f) (fun _ s' l' => s' = {s with ctl := f s.ctl} ∧ l' = l) s l := by
  intro s₁ first
  rw [laterOff off first]
  refine ⟨trivial,doesPure off ⟨rfl,rfl⟩⟩

theorem doesFromCtl {f : σ → α × σ} (off : s.ie = false) :
    Does equiv level during (fromCtl f) (fun a s' l' => a = (f s.ctl).1 ∧ s' = {s with ctl := (f s.ctl).2} ∧ l' = l) s l :=
  doesExec off off ⟨rfl,rfl,rfl⟩

theorem doesEoi {c : Ctrlr σ} (sends : ∀ eoi ∈ c.eoi, ∀ s, R s (eoi irq s)) (off : s.ie = false) :
    Does equiv level during (sendEoi c irq) (fun _ s' l' => s'.ie = false ∧ R s.ctl s'.ctl ∧ l' = l) s l := by
  refine wpBind (doesPointed off fun eoi found => wpMono (doesOnCtl off) ?_)
  rintro _ s' l' ⟨rfl,rfl⟩
  exact ⟨off,sends eoi found s.ctl,rfl⟩

theorem doesMasked {c : Ctrlr σ} {linep : Line η ρ σ} (stable : ∀ s s', R s s' → level irq s → level irq s')
    (lawful : Lawful R (level irq) irq linep.prio c) (off : s.ie = false) : Does equiv level during (handleMasked c linep irq exc)
      (fun rc s' l' => s'.ie = false ∧ R s.ctl s'.ctl ∧ Returns l l' esrch rc) s l := by
  unfold handleMasked
  split
  · rename_i none
    refine wpBind (doesPointed off fun disableIrq found => wpSeq (doesOnCtl off) ?_)
    rintro _ s₁ l₁ ⟨rfl,rfl⟩
    refine wpSeq (doesEoi lawful.sends off) ?_
    rintro _ s₂ l₂ ⟨off₂,second,rfl⟩
    refine wpSeq (doesInvokeIrqHandler stable off₂ (lawful.free none _)) ?_
    rintro rc s₃ l₃ ⟨off₃,third,returns⟩
    refine wpBind (doesPointed off₃ fun enableIrq found' => wpSeq (doesOnCtl off₃) ?_)
    rintro _ s₄ l₄ ⟨rfl,rfl⟩
    refine doesPure off₃ ⟨off₃,?_,returns⟩
    exact equiv.trans (lawful.disables none _ found s.ctl) (equiv.trans second (equiv.trans third (lawful.enables none _ found' _)))
  · rename_i setPriority some
    refine wpBind (doesPointed off fun getPriority found => wpSeq (doesFromCtl off) ?_)
    rintro prio s₁ l₁ ⟨rfl,rfl,rfl⟩
    refine wpSeq (doesOnCtl off) ?_
    rintro _ s₂ l₂ ⟨rfl,rfl⟩
    refine wpSeq (doesEoi lawful.sends off) ?_
    rintro _ s₃ l₃ ⟨off₃,third,rfl⟩
    refine wpSeq (doesInvokeIrqHandler stable off₃ (stable _ _ third (lawful.opens _ some _))) ?_
    rintro rc s₄ l₄ ⟨off₄,fourth,returns⟩
    refine wpSeq (doesOnCtl off₄) ?_
    rintro _ s₅ l₅ ⟨rfl,rfl⟩
    refine doesPure off₄ ⟨off₄,?_,returns⟩
    have back := equiv.trans (lawful.sets _ some (getPriority s.ctl) _ _ (equiv.trans third fourth) |> equiv.symm)
      (equiv.trans (lawful.overwrites _ some _ _ _) (lawful.restores _ some _ found s.ctl))
    exact equiv.symm back

theorem doesLine {linep irq} (stable : ∀ s s', R s s' → level irq s → level irq s')
    (lawful : ∀ c ∈ linep.ctrlrp, Lawful R (level irq) irq linep.prio c) (off : s.ie = false) :
    Does equiv level during (handleIrqLine linep irq exc)
      (fun r s' l' => s'.ie = false ∧ R s.ctl s'.ctl ∧ ∃ i, Returns (l ++ [.undefined i]) l' i r) s l := by
  refine wpBind fun i s₀ zeroth => ⟨trivial,?_⟩
  rw [laterOff off zeroth]
  refine wpBind (doesCheck off fun c found => wpSeq doesSave ?_)
  rintro psw s₁ l₁ ⟨saved,off₁,first,rfl⟩
  refine wpSeq (doesMasked stable (lawful c found) off₁) ?_
  rintro rc s₂ l₂ ⟨off₂,second,rs,rfl,returns,rfl⟩
  refine wpSeq (doesRestore off₂) ?_
  rintro _ s₃ l₃ ⟨restored,third,rfl⟩
  rw [saved,off] at restored
  refine doesPure restored ⟨restored,equiv.trans first (equiv.trans second third),i,rs,rfl,returns,?_⟩
  cases rs.any took with
  | true => rfl
  | false => rfl

theorem doesPending {lines findIrqs} (rules : Rules R level lines findIrqs) (off : s.ie = false) :
    Does equiv level during (handlePending lines exc findIrqs (answer l))
      (fun r s' l' => s'.ie = false ∧ R s.ctl s'.ctl ∧ r = answer l') s l := by
  obtain ⟨_,stable,finds,lawful⟩ := rules
  induction findIrqs generalizing s l with
  | nil => exact doesPure off ⟨off,equiv.refl _,rfl⟩
  | cons finder rest ih =>
    cases finder with
    | none => exact fun _ _ => trivial
    | some findPending =>
      have found := finds findPending List.mem_cons_self exc s.ctl
      refine wpSeq (doesFromCtl off) ?_
      rintro irq s₁ l₁ ⟨rfl,rfl,rfl⟩
      cases (findPending exc s.ctl).1 with
      | none =>
        refine wpMono (ih off fun f here => finds f (List.mem_cons_of_mem _ here)) ?_
        rintro r s₂ l₂ ⟨off₂,second,same⟩
        exact ⟨off₂,equiv.trans found second,same⟩
      | some irq =>
        refine wpSeq (doesLine (stable irq) (lawful irq) off) ?_
        rintro r s₂ l₂ ⟨off₂,second,i,rs,rfl,returns,rfl⟩
        rw [← answerLine returns i,List.append_assoc]
        refine wpMono (ih off₂ fun f here => finds f (List.mem_cons_of_mem _ here)) ?_
        rintro r s₃ l₃ ⟨off₃,third,same⟩
        exact ⟨off₃,equiv.trans found (equiv.trans second third),same⟩

theorem doesHandleIrq {lines findIrqs} (rules : Rules R level lines findIrqs) :
    Does equiv level during (irqHandleIrq lines findIrqs exc) (fun r s' l' => s'.ie = s.ie ∧ R s.ctl s'.ctl ∧ r = answer l') s [] := by
  refine wpSeq doesSave ?_
  rintro psw s₁ l₁ ⟨saved,off₁,first,rfl⟩
  refine wpSeq (doesPending (l := []) rules off₁) ?_
  rintro r s₂ l₂ ⟨off₂,second,same⟩
  refine wpSeq (doesRestore off₂) ?_
  rintro _ s₃ l₃ ⟨restored,third,rfl⟩
  intro s₄ fourth
  have keeps := laterKeeps fourth
  exact ⟨trivial,keeps.1.trans (restored.trans saved),equiv.trans first (equiv.trans second (equiv.trans third keeps.2)),same⟩

theorem handlingSound {lines findIrqs body}
    (rules : Rules R level lines findIrqs) (handlers : ∀ p s, level p.irq s.ctl →
      wp (logic equiv level during) (fun s => s.ie) (during p s) (body p) (fun _ s' _ => R s.ctl s'.ctl) s []) :
    Sound (logic equiv level during) (cpu lines findIrqs body) where
  trap := fun _ _ => doesHandleIrq rules
  ends := fun _ _ _ _ post => ⟨rfl,post.2.1⟩
  body := handlers

end Specs

section Contents
variable {P : (Cpu σ → Cpu σ) → Prop} {F : Fault → Prop}

def Ready (c : Ctrlr σ) : Prop := usable c = true ∧ (c.setPriority.isSome = true → c.getPriority.isSome = true)

def Equipped (lines : Fin nrIrqs → Line η ρ σ) (findIrqs : List (Finder ξ σ)) : Prop :=
  ∀ finder ∈ findIrqs, ∃ findPending, finder = some findPending ∧
    ∀ exc s irq, (findPending exc s).1 = some irq → ∃ c, (lines irq).ctrlrp = some c ∧ Ready c

structure CtrlrSteps (P : (Cpu σ → Cpu σ) → Prop) (irq : Nat) (c : Ctrlr σ) : Prop where
  enables : ∀ enableIrq ∈ c.enableIrq, P fun s => {s with ctl := enableIrq irq s.ctl}
  disables : ∀ disableIrq ∈ c.disableIrq, P fun s => {s with ctl := disableIrq irq s.ctl}
  sets : ∀ setPriority ∈ c.setPriority, ∀ p, P fun s => {s with ctl := setPriority p s.ctl}
  sends : ∀ eoi ∈ c.eoi, P fun s => {s with ctl := eoi irq s.ctl}

structure Steps (P : (Cpu σ → Cpu σ) → Prop) (lines : Fin nrIrqs → Line η ρ σ) (findIrqs : List (Finder ξ σ)) : Prop where
  looks : P fun s => s
  masks : ∀ b, P fun s => {s with ie := b}
  finds : ∀ findPending, some findPending ∈ findIrqs → ∀ exc, P fun s => {s with ctl := (findPending exc s.ctl).2}
  ctrlrs : ∀ irq, ∀ c ∈ (lines irq).ctrlrp, CtrlrSteps P irq c

abbrev Has (P : (Cpu σ → Cpu σ) → Prop) (F : Fault → Prop) (x : Handling η ρ ξ σ α) : Prop := Within P (fun _ => True) F x

theorem hasSave (looks : P fun s => s) (masks : ∀ b, P fun s => {s with ie := b}) :
    Has P F (pswDisableAndSaveInterrupt : Handling η ρ ξ σ Bool) :=
  ⟨looks,fun _ => ⟨masks false,fun _ => trivial⟩⟩

theorem hasPointed {f : Option α} {g : α → Handling η ρ ξ σ β} (faults : f.isSome = true ∨ ∀ e, F e)
    (next : ∀ a ∈ f, Has P F (g a)) :
    Has P F (pointed f >>= g) := by
  cases f with
  | some a => exact next a rfl
  | none =>
    rcases faults with no | all
    · cases no
    · exact all .nullPointer

theorem hasCheck {ctrlrp} {g : Ctrlr σ → Handling η ρ ξ σ β}
    (faults : (∃ c, ctrlrp = some c ∧ usable c = true) ∨ ∀ e, F e) (next : ∀ c ∈ ctrlrp, Has P F (g c)) :
    Has P F (checkCtrlr ctrlrp >>= g) := by
  cases ctrlrp with
  | none =>
    rcases faults with ⟨c,same,_⟩ | all
    · cases same
    · exact all .assertion
  | some c =>
    by_cases ready : usable c = true
    · have check : (checkCtrlr (some c) : Handling η ρ ξ σ (Ctrlr σ)) = pure c := by simp only [checkCtrlr,ready,if_true]
      rw [check]
      exact next c rfl
    · have check : (checkCtrlr (some c) : Handling η ρ ξ σ (Ctrlr σ)) = stop .assertion := by simp only [checkCtrlr,ready]; rfl
      rw [check]
      rcases faults with ⟨c,same,usable⟩ | all
      · cases same
        exact absurd usable ready
      · exact all .assertion

theorem hasHandlers (masks : ∀ b, P fun s => {s with ie := b}) (attr irq exc entps rc) :
    Has P F (invokeHandlers attr irq exc entps rc : Handling η ρ ξ σ Int) := by
  induction entps generalizing rc with
  | nil => trivial
  | cons entp rest ih =>
    obtain ⟨handler,priv,asked⟩ := entp
    cases handler with
    | none => exact ih rc
    | some handler =>
      refine withinBind ?_ fun _ => withinBind ⟨trivial,fun _ => trivial⟩ fun r => withinBind ⟨masks false,fun _ => trivial⟩ fun _ => ih _
      unfold enableNesting
      split
      · exact ⟨masks true,fun _ => trivial⟩
      · trivial

theorem hasInvoke (looks : P fun s => s) (masks : ∀ b, P fun s => {s with ie := b}) (linep : Line η ρ σ) (irq : Fin nrIrqs) (exc : ξ) :
    Has P F (invokeIrqHandler linep irq exc) :=
  withinBind (hasSave looks masks) fun psw => withinBind (hasHandlers masks _ _ _ _ _) fun _ => withinBind ⟨masks psw,fun _ => trivial⟩ fun _ =>
    trivial

theorem readyPointers {c : Ctrlr σ} (ready : Ready c) : (c.setPriority = none → c.disableIrq.isSome = true) ∧ c.enableIrq.isSome = true ∧
    c.eoi.isSome = true := by
  obtain ⟨ready,_⟩ := ready
  simp only [usable,Bool.and_eq_true,Bool.or_eq_true] at ready
  obtain ⟨⟨masks,enables⟩,sends⟩ := ready
  refine ⟨fun none => ?_,enables,sends⟩
  rcases masks with disables | ⟨_,sets⟩
  · exact disables
  · rw [none] at sets
    cases sets

theorem hasMasked {c : Ctrlr σ} (looks : P fun s => s) (masks : ∀ b, P fun s => {s with ie := b}) (steps : CtrlrSteps P irq c)
    (faults : Ready c ∨ ∀ e, F e) (linep : Line η ρ σ) : Has P F (handleMasked c linep irq exc) := by
  have pointers : (c.setPriority = none → c.disableIrq.isSome = true) ∧ c.enableIrq.isSome = true ∧ c.eoi.isSome = true ∨ ∀ e, F e :=
    faults.imp_left readyPointers
  have sends : Has P F (sendEoi c irq : Handling η ρ ξ σ Unit) :=
    hasPointed (pointers.imp_left fun all => all.2.2) fun eoi found => ⟨steps.sends eoi found,fun _ => trivial⟩
  unfold handleMasked
  split
  · rename_i none
    refine hasPointed (pointers.imp_left fun all => all.1 none) fun disableIrq found => ?_
    refine withinBind ⟨steps.disables _ found,fun _ => trivial⟩ fun _ => withinBind sends fun _ =>
      withinBind (hasInvoke looks masks linep irq exc) fun rc => hasPointed (pointers.imp_left fun all => all.2.1) fun enableIrq found => ?_
    exact ⟨steps.enables _ found,fun _ => trivial⟩
  · rename_i setPriority some
    refine hasPointed (faults.imp_left fun ready => ready.2 (by rw [some]; rfl)) fun getPriority found => ?_
    refine withinBind ⟨looks,fun _ => trivial⟩ fun prio => withinBind ⟨steps.sets _ some _,fun _ => trivial⟩ fun _ => ?_
    refine withinBind sends fun _ => withinBind (hasInvoke looks masks linep irq exc) fun rc => ?_
    exact ⟨steps.sets _ some _,fun _ => trivial⟩

theorem hasLine {linep : Line η ρ σ} (looks : P fun s => s) (masks : ∀ b, P fun s => {s with ie := b})
    (steps : ∀ c ∈ linep.ctrlrp, CtrlrSteps P irq c) (faults : (∃ c, linep.ctrlrp = some c ∧ Ready c) ∨ ∀ e, F e) :
    Has P F (handleIrqLine linep irq exc) := by
  refine fun i => hasCheck (faults.imp_left fun ready => ?_) fun c found => ?_
  · obtain ⟨c,found,ready⟩ := ready
    exact ⟨c,found,ready.1⟩
  · have faults : Ready c ∨ ∀ e, F e := by
      refine faults.imp_left fun ⟨c',same,ready⟩ => ?_
      rw [found] at same
      cases same
      exact ready
    refine withinBind (hasSave looks masks) fun psw => withinBind (hasMasked looks masks (steps c found) faults linep) fun rc => ?_
    exact ⟨masks psw,fun _ => trivial⟩

theorem hasPending (steps : Steps P lines findIrqs) (faults : Equipped lines findIrqs ∨ ∀ e, F e) (isHandled) :
    Has P F (handlePending lines exc findIrqs isHandled) := by
  obtain ⟨looks,masks,finds,ctrlrs⟩ := steps
  induction findIrqs generalizing isHandled with
  | nil => trivial
  | cons finder rest ih =>
    have later := fun rc => ih (faults.imp_left fun all finder here => all finder (List.mem_cons_of_mem _ here)) rc
      fun f here => finds f (List.mem_cons_of_mem _ here)
    cases finder with
    | none =>
      rcases faults with all | all
      · obtain ⟨_,same,_⟩ := all none List.mem_cons_self
        cases same
      · exact all .assertion
    | some findPending =>
      refine ⟨finds _ List.mem_cons_self exc,fun s => ?_⟩
      cases found : (findPending exc s.ctl).1 with
      | none =>
        simp only [found]
        exact later isHandled
      | some irq =>
        have line : Has P F (handleIrqLine (lines irq) irq exc) := by
          refine hasLine looks masks (ctrlrs irq) (faults.imp_left fun all => ?_)
          obtain ⟨_,same,ready⟩ := all (some findPending) List.mem_cons_self
          cases same
          exact ready exc s.ctl irq found
        have both : Has P F (handleIrqLine (lines irq) irq exc >>= fun rc => handlePending lines exc rest (if rc = 0 then 0 else isHandled)) :=
          withinBind line fun rc => later _
        simp only [found]
        exact both

theorem hasHandleIrq (steps : Steps P lines findIrqs) (faults : Equipped lines findIrqs ∨ ∀ e, F e) : Has P F (irqHandleIrq lines findIrqs exc) :=
  withinBind (hasSave steps.looks steps.masks) fun psw => withinBind (hasPending steps faults _) fun _ =>
    withinBind ⟨steps.masks psw,fun _ => trivial⟩ fun _ => trivial

end Contents

section Spurious

theorem anySteps (lines : Fin nrIrqs → Line η ρ σ) (findIrqs : List (Finder ξ σ)) : Steps (fun _ => True) lines findIrqs :=
  ⟨trivial,fun _ => trivial,fun _ _ _ => trivial,fun _ _ _ => ⟨fun _ _ => trivial,fun _ _ => trivial,fun _ _ _ => trivial,fun _ _ => trivial⟩⟩

theorem anyRules (lines : Fin nrIrqs → Line η ρ σ) (findIrqs : List (Finder ξ σ)) :
    Rules (fun _ _ => True) (fun _ _ => True) lines findIrqs where
  equiv := ⟨fun _ => trivial,fun _ => trivial,fun _ _ => trivial⟩
  stable := fun _ _ _ _ _ => trivial
  finds := fun _ _ _ _ => trivial
  lawful := fun _ _ _ => ⟨fun _ _ _ => trivial,fun _ _ _ _ => trivial,fun _ _ _ _ => trivial,fun _ _ _ _ _ _ => trivial,fun _ _ _ _ _ => trivial,
    fun _ _ _ _ _ => trivial,fun _ _ _ => trivial,fun _ _ => trivial⟩

variable {body : Invocation η ρ ξ → Handling η ρ ξ σ Int} {before entry : Cpu σ} {m : Machine (Cpu σ) (Invocation η ρ ξ) Fault}
  {log : List (Note (Invocation η ρ ξ))} {rest : List (Frame (Cpu σ) (Invocation η ρ ξ) Fault)}

theorem answered (run : (cpu lines findIrqs body).Reached ((cpu lines findIrqs body).begin exc s) m)
    (top : m.frames = ⟨.trap before,entry,.done rc,log⟩ :: rest) : rc = answer log := by
  have rules := anyRules lines findIrqs
  have sound : Sound (logic rules.equiv (fun _ _ => True) fun _ _ _ => True) (cpu lines findIrqs body) :=
    handlingSound rules fun p s _ => wpAny (fun _ _ => trivial) (body p)
  exact (returning sound run top rfl rfl).2.2

theorem spuriousReported (lines : Fin nrIrqs → Line η ρ σ) (findIrqs : List (Finder ξ σ))
    (body : Invocation η ρ ξ → Handling η ρ ξ σ Int) (exc : ξ) (s : Cpu σ) :
    (∀ m before entry rc log rest, (cpu lines findIrqs body).Reached ((cpu lines findIrqs body).begin exc s) m →
      m.frames = ⟨.trap before,entry,.done rc,log⟩ :: rest →
      (rc = (if log.any took then 0 else esrch) ↔ (log.any took = true ∨ leaked log = false))) ∧
    (Equipped lines findIrqs → (∀ p, Plain (body p)) →
      ∀ m, (cpu lines findIrqs body).Reached ((cpu lines findIrqs body).begin exc s) m → ∃ m', (cpu lines findIrqs body).Reached m m' ∧
        m'.frames = []) := by
  refine ⟨fun m before entry rc log rest run top => ?_,fun equipped plain m run =>
    allReturn (fun _ => hasHandleIrq (anySteps lines findIrqs) (Or.inl equipped)) plain run⟩
  rw [answered run top,answer]
  cases log.any took with
  | true => simp
  | false =>
    cases leaked log with
    | true => simp [esrch]
    | false => simp

end Spurious

def irqNotHandled : Int := 1
def plainCtrlr : Ctrlr Unit := ⟨some fun _ s => s,some fun _ s => s,none,none,some fun _ s => s⟩
def oneHandler : Fin nrIrqs → Line Unit Unit Unit := fun _ => ⟨0,0,[⟨some (),(),0⟩],some plainCtrlr⟩

def answering (r : Int) : System (Cpu Unit) (Invocation Unit Unit Unit) Unit Fault := cpu oneHandler [some fun _ s => (some 5,s)] fun _ => pure r

theorem handledIsReported : ∃ m rc log, (answering irqHandled).Reached ((answering irqHandled).begin () ⟨true,()⟩) m ∧
    m.frames = [⟨.trap ⟨true,()⟩,⟨true,()⟩,.done rc,log⟩] ∧ log.any took = true ∧ rc = 0 := by
  have ran : (answering irqHandled).play (List.replicate 18 (.run 7)) ((answering irqHandled).begin () ⟨true,()⟩) =
      some ⟨⟨true,()⟩,[⟨.trap ⟨true,()⟩,⟨true,()⟩,.done 0,[.undefined 7,.returned ⟨(),5,(),()⟩ 0]⟩]⟩ := rfl
  have run := playReached .start ran
  have code := ((spuriousReported oneHandler [some fun _ s => (some 5,s)] (fun _ => pure irqHandled) () ⟨true,()⟩).1 _ _ _ _ _ _ run rfl).mpr
    (Or.inl rfl)
  exact ⟨_,_,_,run,rfl,rfl,code.trans (if_pos rfl)⟩

theorem zeroIsHandled : ∃ m, (answering irqNotHandled).Reached ((answering irqNotHandled).begin () ⟨true,()⟩) m ∧
    m.frames = [⟨.trap ⟨true,()⟩,⟨true,()⟩,.done 0,[.undefined 0,.returned ⟨(),5,(),()⟩ irqNotHandled]⟩] := by
  have ran : (answering irqNotHandled).play (List.replicate 18 (.run 0)) ((answering irqNotHandled).begin () ⟨true,()⟩) =
      some ⟨⟨true,()⟩,[⟨.trap ⟨true,()⟩,⟨true,()⟩,.done 0,[.undefined 0,.returned ⟨(),5,(),()⟩ irqNotHandled]⟩]⟩ := rfl
  exact ⟨_,playReached .start ran,rfl⟩

end TskSw.IrqHandling
