import TskSw.Irq

/-! What registrations leave behind in a line of `kern/irq.c`. The attribute and the priority
are stored before `config_irq` is asked, and no removal takes them back. -/
namespace TskSw.Registrations
open Irq

variable {η ρ σ : Type} {mem : Bool} {irq : Int} {attr prio : BitVec 32} {i : Fin nrIrqs} {s : IrqManage η ρ σ} {priv : ρ}
  {handler : Option η}

section Answers
variable {ctrlr : IrqCtrlr σ} {configIrq : Nat → BitVec 32 → BitVec 32 → σ → Int × σ}

theorem lineOfIndex (i) : lineOf i.val = some i := by
  have inside : 0 ≤ (i.val : Int) ∧ (i.val : Int).toNat < nrIrqs := ⟨Int.natCast_nonneg _,by rw [Int.toNat_natCast]; exact i.isLt⟩
  rw [lineOf,dif_pos inside]
  rfl

theorem registerPasses (passes : Passes s irq attr i ctrlr configIrq) :
    irqRegisterHandler mem irq attr prio priv handler s =
      if mem then configureLine configIrq ctrlr i attr prio ⟨handler,priv,attr⟩ s else (enomem,s) := by
  have nesting : ¬ (attr &&& irqAttrNonNestable = 0 ∧ (s.irqs i).attr &&& irqAttrNonNestable ≠ 0) := fun both => both.2 (passes.nesting both.1)
  have alone : ¬ (attr &&& irqAttrExclusive ≠ 0 ∧ (s.irqs i).handlers.isEmpty = false) := by
    rintro ⟨asked,some⟩
    rw [passes.alone asked] at some
    cases some
  simp only [irqRegisterHandler,passes.line,(maskedBits attr).1,(maskedBits attr).2,if_neg nesting,if_neg alone,passes.found,passes.config]

theorem configureCode (configIrq : Nat → BitVec 32 → BitVec 32 → σ → Int × σ) (ctrlr i attr prio ent) (s : IrqManage η ρ σ) :
    (configureLine configIrq ctrlr i attr prio ent s).1 = (configIrq i attr prio s.hw).1 := by
  unfold configureLine
  dsimp only
  split
  · rfl
  · rename_i zero
    exact (not_not.mp zero).symm

end Answers

section Failures

def SameLine (linep linep' : IrqLine η ρ σ) : Prop := linep'.handlers = linep.handlers ∧ linep'.attr = linep.attr ∧ linep'.prio = linep.prio

def RefusedChange (s : IrqManage η ρ σ) (mem : Bool) (irq : Int) (attr prio : BitVec 32) : Prop :=
  ∃ i ctrlr configIrq, Passes s irq attr i ctrlr configIrq ∧ mem = true ∧ (configIrq i attr prio s.hw).1 ≠ 0 ∧
    ((s.irqs i).attr ≠ attr ∨ (s.irqs i).prio ≠ prio)

theorem refusedChanges (refused : RefusedChange s mem irq attr prio) :
    (irqRegisterHandler mem irq attr prio priv handler s).1 ≠ 0 ∧
      ∃ i, ¬ SameLine (s.irqs i) ((irqRegisterHandler mem irq attr prio priv handler s).2.irqs i) := by
  obtain ⟨i,ctrlr,configIrq,passes,rfl,fails,changed⟩ := refused
  have ran : irqRegisterHandler true irq attr prio priv handler s = configureLine configIrq ctrlr i attr prio ⟨handler,priv,attr⟩ s := by
    rw [registerPasses passes,if_pos rfl]
  rw [ran,configureCode]
  refine ⟨fails,i,fun same => ?_⟩
  have line : (configureLine configIrq ctrlr i attr prio ⟨handler,priv,attr⟩ s).2.irqs i = {s.irqs i with attr := attr, prio := prio} := by
    simp only [configureLine,if_pos fails]
    exact setSelf ..
  rw [line] at same
  rcases changed with other | other
  · exact other same.2.1.symm
  · exact other same.2.2.symm

theorem unrefusedKeeps (apart : ¬ RefusedChange s mem irq attr prio) (fails : (irqRegisterHandler mem irq attr prio priv handler s).1 ≠ 0) :
    ∀ i, SameLine (s.irqs i) ((irqRegisterHandler mem irq attr prio priv handler s).2.irqs i) := by
  obtain ⟨rc,s',ok⟩ : ∃ rc s', irqRegisterHandler mem irq attr prio priv handler s = (rc,s') := ⟨_,_,rfl⟩
  rw [ok] at fails ⊢
  rcases registerCases ok with ⟨_,rfl⟩ | ⟨i,ctrlr,configIrq,passes,done,-⟩
  · exact fun _ => ⟨rfl,rfl,rfl⟩
  cases mem with
  | false =>
    rw [registerPasses passes] at ok
    cases ok
    exact fun _ => ⟨rfl,rfl,rfl⟩
  | true =>
    rcases configureCases done with ⟨rfl,_,rfl⟩ | ⟨zero,_⟩
    · have same : (s.irqs i).attr = attr ∧ (s.irqs i).prio = prio := by
        by_contra other
        exact apart ⟨i,ctrlr,configIrq,passes,rfl,fails,not_and_or.mp other⟩
      intro j
      by_cases here : j = i
      · subst here
        simp [SameLine,same]
      · simp [SameLine,here]
    · exact absurd zero fails

theorem failedKeepsLine (s : IrqManage η ρ σ) (mem : Bool) (irq : Int) (attr prio : BitVec 32) (priv : ρ) (handler : Option η) :
    ((irqRegisterHandler mem irq attr prio priv handler s).1 ≠ 0 →
      ∀ i, SameLine (s.irqs i) ((irqRegisterHandler mem irq attr prio priv handler s).2.irqs i)) ↔ ¬ RefusedChange s mem irq attr prio := by
  constructor
  · intro keeps refused
    obtain ⟨fails,i,changed⟩ : (irqRegisterHandler mem irq attr prio priv handler s).1 ≠ 0 ∧ _ := refusedChanges refused
    exact changed (keeps fails i)
  · exact unrefusedKeeps

end Failures

section Reuse
variable {s' : IrqManage η ρ σ}

def SameAnswers (i : Fin nrIrqs) (s s' : IrqManage η ρ σ) : Prop :=
  ∀ mem attr prio priv handler, (irqRegisterHandler mem i.val attr prio priv handler s').1 =
    (irqRegisterHandler mem i.val attr prio priv handler s).1

def SteadyCtrlr (i : Fin nrIrqs) (s s' : IrqManage η ρ σ) : Prop :=
  ∀ ctrlr configIrq, (s.irqs i).ctrlrp = some ctrlr → ctrlr.configIrq = some configIrq →
    ∀ attr prio, (configIrq i attr prio s'.hw).1 = (configIrq i attr prio s.hw).1

def Hardens (i : Fin nrIrqs) (s : IrqManage η ρ σ) : Call η ρ → Prop
  | .register mem irq attr _ _ _ => mem = true ∧ attr &&& irqAttrNonNestable ≠ 0 ∧ ∃ ctrlr configIrq, Passes s irq attr i ctrlr configIrq
  | .unregister _ _ => False

def Soft (i : Fin nrIrqs) (s : IrqManage η ρ σ) : Prop := (s.irqs i).attr &&& irqAttrNonNestable = 0

theorem emptyAnswer (soft : Soft i s) (empty : (s.irqs i).handlers = []) (mem attr prio priv handler) :
    (irqRegisterHandler mem i.val attr prio priv handler s).1 =
      match (s.irqs i).ctrlrp.bind IrqCtrlr.configIrq with
      | none => enoent
      | some configIrq => if mem then (configIrq i attr prio s.hw).1 else enomem := by
  have nesting : ¬ (attr &&& irqAttrNonNestable = 0 ∧ (s.irqs i).attr &&& irqAttrNonNestable ≠ 0) := fun both => both.2 soft
  have alone : ¬ (attr &&& irqAttrExclusive ≠ 0 ∧ (s.irqs i).handlers.isEmpty = false) := by simp [empty]
  cases found : (s.irqs i).ctrlrp with
  | none => simp only [irqRegisterHandler,lineOfIndex,maskedBits,if_neg nesting,if_neg alone,found,Option.bind_none]
  | some ctrlr =>
    cases config : ctrlr.configIrq with
    | none => simp only [irqRegisterHandler,lineOfIndex,maskedBits,if_neg nesting,if_neg alone,found,config,Option.bind_some]
    | some configIrq =>
      rw [registerPasses ⟨lineOfIndex i,fun _ => soft,fun _ => empty,found,config⟩]
      simp only [Option.bind_some,config]
      split
      · exact configureCode ..
      · rfl

theorem hardAnswer (hard : ¬ Soft i s) (mem prio priv handler) :
    (irqRegisterHandler mem i.val 0 prio priv handler s).1 = einval := by
  have refused : (0 : BitVec 32) &&& irqAttrHandlerMask &&& irqAttrNonNestable = 0 ∧ (s.irqs i).attr &&& irqAttrNonNestable ≠ 0 :=
    ⟨by decide,hard⟩
  simp only [irqRegisterHandler,lineOfIndex,if_pos refused]

theorem sameAnswersIff [Nonempty ρ] (soft : Soft i s) (empty : (s.irqs i).handlers = []) (empty' : (s'.irqs i).handlers = [])
    (ctrlr : (s'.irqs i).ctrlrp = (s.irqs i).ctrlrp) : SameAnswers i s s' ↔ Soft i s' ∧ SteadyCtrlr i s s' := by
  constructor
  · intro same
    obtain ⟨priv⟩ := ‹Nonempty ρ›
    have soft' : Soft i s' := by
      by_contra hard
      have differ := same false 0 0 priv none
      rw [hardAnswer hard,emptyAnswer soft empty] at differ
      split at differ
      · exact absurd differ (by decide)
      · rw [if_neg Bool.false_ne_true] at differ
        exact absurd differ (by decide)
    refine ⟨soft',fun c configIrq found config attr prio => ?_⟩
    have answer := same true attr prio priv none
    rw [emptyAnswer soft' empty',emptyAnswer soft empty,ctrlr,found] at answer
    simpa only [Option.bind_some,config,if_true] using answer
  · rintro ⟨soft',steady⟩ mem attr prio priv handler
    rw [emptyAnswer soft' empty',emptyAnswer soft empty,ctrlr]
    cases found : (s.irqs i).ctrlrp with
    | none => rfl
    | some c =>
      cases config : c.configIrq with
      | none => simp [config]
      | some configIrq => simp [config,steady c configIrq found config]

variable [DecidableEq η] {c : Call η ρ} {rc : Int}

theorem stepCtrlr {known : Fin nrIrqs → Option (IrqCtrlr σ)} (same : ∀ j, (s.irqs j).ctrlrp = known j) (next : step c s = .ok (rc,s')) :
    ∀ j, (s'.irqs j).ctrlrp = known j := by
  cases c with
  | register mem irq attr prio priv handler =>
    exact registerLines (P := fun j linep => linep.ctrlrp = known j) same (Except.ok.inj next) (fun j _ _ _ => same j) fun j _ _ _ _ => same j
  | unregister irq handler => exact unregisterLines (P := fun j linep => linep.ctrlrp = known j) same next same

theorem unregisterAttr {irq handler} (ok : irqUnregisterHandler irq handler s = .ok (rc,s')) (j) :
    (s'.irqs j).attr = (s.irqs j).attr :=
  unregisterLines (P := fun j linep => linep.attr = (s.irqs j).attr) (fun _ => rfl) ok (fun _ => rfl) j

theorem stepSoft (soft : Soft i s) (next : step c s = .ok (rc,s')) : Soft i s' ↔ ¬ Hardens i s c := by
  cases c with
  | unregister irq handler =>
    refine iff_of_true ?_ not_false
    rw [Soft,unregisterAttr next]
    exact soft
  | register mem irq attr prio priv handler =>
    have ok := Except.ok.inj next
    constructor
    · rintro after ⟨rfl,asked,ctrlr,configIrq,passes⟩
      rw [registerPasses passes,if_pos rfl] at ok
      have stored : (s'.irqs i).attr = attr := by
        rcases configureCases ok with ⟨_,_,rfl⟩ | ⟨_,_,_,rfl⟩
        · exact congrArg IrqLine.attr (setSelf i _)
        · exact congrArg IrqLine.attr (setSelf i _)
      rw [Soft,stored] at after
      exact asked after
    · intro apart
      rcases registerCases ok with ⟨_,rfl⟩ | ⟨j,ctrlr,configIrq,passes,done,-⟩
      · exact soft
      cases mem with
      | false =>
        rw [registerPasses passes] at ok
        cases ok
        exact soft
      | true =>
        by_cases here : i = j
        · subst here
          have plain : attr &&& irqAttrNonNestable = 0 := by
            by_contra asked
            exact apart ⟨rfl,asked,ctrlr,configIrq,passes⟩
          rcases configureCases done with ⟨_,_,rfl⟩ | ⟨_,_,_,rfl⟩
          · simpa [Soft] using plain
          · simpa [Soft] using plain
        · rcases configureCases done with ⟨_,_,rfl⟩ | ⟨_,_,_,rfl⟩
          · simpa [Soft,here] using soft
          · simpa [Soft,here] using soft

theorem runsFree {allowed : IrqManage η ρ σ → Call η ρ → Prop} {s₀} (runs : Runs allowed s₀ s) : Runs (fun _ _ => True) s₀ s := by
  induction runs with
  | start => exact .start
  | call _ _ next ih => exact .call ih trivial next

theorem reusedAsNew [Nonempty ρ] (ctrlr : Fin nrIrqs → Option (IrqCtrlr σ)) (hw : σ) (i : Fin nrIrqs) :
    (∀ s : IrqManage η ρ σ, Runs (fun s c => ¬ Hardens i s c) (irqInitializeManager ctrlr hw) s → (s.irqs i).handlers = [] →
      SteadyCtrlr i (irqInitializeManager ctrlr hw) s → SameAnswers i (irqInitializeManager ctrlr hw) s) ∧
    (∀ s : IrqManage η ρ σ, Runs (fun _ _ => True) (irqInitializeManager ctrlr hw) s → (s.irqs i).handlers = [] →
      (SameAnswers i (irqInitializeManager ctrlr hw) s ↔ Soft i s ∧ SteadyCtrlr i (irqInitializeManager ctrlr hw) s)) ∧
    ∀ (s s' : IrqManage η ρ σ) c rc, Soft i s → step c s = .ok (rc,s') → (Soft i s' ↔ ¬ Hardens i s c) := by
  have begins : Soft i (irqInitializeManager ctrlr hw : IrqManage η ρ σ) := by
    unfold Soft
    exact BitVec.zero_and
  have exact' : ∀ s : IrqManage η ρ σ, Runs (fun _ _ => True) (irqInitializeManager ctrlr hw) s → (s.irqs i).handlers = [] →
      (SameAnswers i (irqInitializeManager ctrlr hw) s ↔ Soft i s ∧ SteadyCtrlr i (irqInitializeManager ctrlr hw) s) := by
    intro s runs empty
    have known := runsInvariant (P := fun s => ∀ j, (s.irqs j).ctrlrp = ctrlr j) (fun _ => rfl)
      (fun _ _ _ _ same _ next => stepCtrlr same next) runs
    exact sameAnswersIff begins rfl empty (known i)
  refine ⟨fun s runs empty steady => ?_,exact',fun s s' c rc soft next => stepSoft soft next⟩
  have soft : Soft i s := runsInvariant begins (fun _ _ _ _ soft apart next => (stepSoft soft next).mpr apart) runs
  exact (exact' s (runsFree runs) empty).mpr ⟨soft,steady⟩

end Reuse

def pickyCtrlr : IrqCtrlr Unit := ⟨some fun _ _ prio _ => (if prio = 0 then 0 else einval,()),fun _ _ => (),fun _ _ => ()⟩
def pickyStart : IrqManage Nat Unit Unit := irqInitializeManager (fun _ => some pickyCtrlr) ()
def afterRefusal : IrqManage Nat Unit Unit := (irqRegisterHandler true 5 irqAttrNonNestable 3 () (some 1) pickyStart).2

theorem refusalStays : irqRegisterHandler true 5 irqAttrNonNestable 3 () (some 1) pickyStart = (einval,afterRefusal) ∧
    ((pickyStart.irqs 5).attr,(pickyStart.irqs 5).prio) = (0,0) ∧
      ((afterRefusal.irqs 5).attr,(afterRefusal.irqs 5).prio) = (irqAttrNonNestable,3) ∧
    (irqRegisterHandler true 5 0 0 () (some 2) pickyStart).1 = 0 ∧ (irqRegisterHandler true 5 0 0 () (some 2) afterRefusal).1 = einval :=
  ⟨rfl,by decide,by decide,by decide,by decide⟩

def withHard : IrqManage Nat Unit Unit := (irqRegisterHandler true 5 irqAttrNonNestable 0 () (some 1) plainStart).2
def hardGone : IrqManage Nat Unit Unit := ((irqUnregisterHandler 5 (some 1) withHard).toOption.getD (0,withHard)).2

theorem hardStays : step (.register true 5 irqAttrNonNestable 0 () (some 1)) plainStart = .ok (0,withHard) ∧
    step (.unregister 5 (some 1)) withHard = .ok (0,hardGone) ∧ (hardGone.irqs 5).handlers.length = 0 ∧
    (irqRegisterHandler true 5 0 0 () (some 2) plainStart).1 = 0 ∧ (irqRegisterHandler true 5 0 0 () (some 2) hardGone).1 = einval :=
  ⟨rfl,rfl,by decide,by decide,by decide⟩

def softGone : IrqManage Nat Unit Unit := ((irqUnregisterHandler 5 (some 1) afterExclusive).toOption.getD (0,afterExclusive)).2

theorem exclusiveLeavesNothing : (softGone.irqs 5).handlers.length = 0 ∧ SameAnswers 5 plainStart softGone := by
  have came : step (.register true 5 irqAttrExclusive 0 () (some 1)) plainStart = .ok (0,afterExclusive) := rfl
  have gone : step (.unregister 5 (some 1)) afterExclusive = .ok (0,softGone) := rfl
  have mild : ¬ Hardens 5 plainStart (.register true 5 irqAttrExclusive 0 () (some 1)) := fun hardens => hardens.2.1 (by decide)
  have removal : ¬ Hardens 5 afterExclusive (.unregister 5 (some 1)) := not_false
  have runs : Runs (fun s c => ¬ Hardens 5 s c) plainStart softGone := .call (.call .start mild came) removal gone
  refine ⟨by decide,(reusedAsNew (η := Nat) (ρ := Unit) (fun _ => some plainCtrlr) () 5).1 softGone runs rfl ?_⟩
  intro ctrlr configIrq found config attr prio
  cases found
  cases config
  rfl

end TskSw.Registrations
