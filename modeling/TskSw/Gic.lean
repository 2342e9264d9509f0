import TskSw.Irq

/-! The distributor of `hal/aarch64/gic-pl390.c` behind the lines of `kern/irq.c`. Writing to
a set or clear register changes the bits that are written as one and no others. -/
namespace TskSw.Gic
open Irq

def gicIntMax : Nat := 64
def gicGicdIcfgrLevel : BitVec 32 := 0
def gicGicdIcfgrEdge : BitVec 32 := 2
def gicPriShift : Nat := 4
def gicPriMask : BitVec 32 := 0x0f

structure Gicd where
  enable : Nat → BitVec 32
  pending : Nat → BitVec 32
  icfgr : Nat → BitVec 32
  ipriorityr : Nat → BitVec 32
  itargetsr : Nat → BitVec 32

def intBit (irq : Nat) : BitVec 32 := 1#32 <<< (irq % 32)

def gicdDisableInt (irq : Nat) (g : Gicd) : Gicd :=
  {g with enable := Function.update g.enable (irq/32) (g.enable (irq/32) &&& ~~~intBit irq)}

def gicdEnableInt (irq : Nat) (g : Gicd) : Gicd :=
  {g with enable := Function.update g.enable (irq/32) (g.enable (irq/32) ||| intBit irq)}

def gicdClearPending (irq : Nat) (g : Gicd) : Gicd :=
  {g with pending := Function.update g.pending (irq/32) (g.pending (irq/32) &&& ~~~intBit irq)}

def setField (reg : BitVec 32) (mask : BitVec 32) (shift : Nat) (value : BitVec 32) : BitVec 32 :=
  (reg &&& ~~~(mask <<< shift)) ||| (value <<< shift)

def gicdSetTarget (irq : Nat) (p : BitVec 32) (g : Gicd) : Gicd :=
  {g with itargetsr := Function.update g.itargetsr (irq/4) (setField (g.itargetsr (irq/4)) 0xff (irq%4*8) p)}

def gicdSetPriority (irq : Nat) (prio : BitVec 32) (g : Gicd) : Gicd :=
  {g with ipriorityr := Function.update g.ipriorityr (irq/4) (setField (g.ipriorityr (irq/4)) 0xff (irq%4*8) prio)}

def gicdConfig (irq : Nat) (config : BitVec 32) (g : Gicd) : Gicd :=
  {g with icfgr := Function.update g.icfgr (irq/16) (setField (g.icfgr (irq/16)) 0x03 (irq%16*2) config)}

def gicPl390ConfigIrq (irq : Nat) (attr prio : BitVec 32) (g : Gicd) : Int × Gicd :=
  let g := gicdDisableInt irq g
  let g := if attr &&& irqAttrEdge ≠ 0 then gicdClearPending irq (gicdConfig irq gicGicdIcfgrEdge g) else gicdConfig irq gicGicdIcfgrLevel g
  let g := gicdSetPriority irq ((prio &&& gicPriMask) <<< gicPriShift) g
  (0,gicdSetTarget irq 0x1 g)

def armGicCtrlr : IrqCtrlr Gicd := ⟨some gicPl390ConfigIrq,gicdEnableInt,gicdDisableInt⟩

def initGicd (g : Gicd) : Gicd where
  enable := fun i => if i < 2 then 0 else g.enable i
  pending := fun i => if i < 2 then 0 else g.pending i
  icfgr := fun i => if 1 ≤ i ∧ i < 4 then 0 else g.icfgr i
  ipriorityr := fun i => if i < 16 then ~~~0 else g.ipriorityr i
  itargetsr := fun i => if 8 ≤ i ∧ i < 16 then 0x01010101 else g.itargetsr i

def gicLines (i : Fin nrIrqs) : Option (IrqCtrlr Gicd) := if i.val < gicIntMax then some armGicCtrlr else none

def enabled (g : Gicd) (irq : Nat) : Bool := (g.enable (irq/32)).getLsbD (irq%32)

section Bits
variable {g : Gicd} {irq j : Nat} {attr prio : BitVec 32}

theorem intBitAt (same : j/32 = irq/32) : (intBit irq).getLsbD (j%32) = decide (j = irq) := by
  simp only [intBit,BitVec.getLsbD_shiftLeft,BitVec.getLsbD_one]
  rw [Bool.eq_iff_iff]
  simp only [Bool.and_eq_true,Bool.not_eq_true',decide_eq_true_eq,decide_eq_false_iff_not]
  omega

theorem enabledDisable : enabled (gicdDisableInt irq g) j = (!decide (j = irq) && enabled g j) := by
  unfold enabled gicdDisableInt
  by_cases same : j/32 = irq/32
  · have small : j%32 < 32 := Nat.mod_lt _ (by decide)
    simp only [same,Function.update_self,BitVec.getLsbD_and,BitVec.getLsbD_not,intBitAt same,small,decide_true,Bool.true_and]
    exact Bool.and_comm _ _
  · have other : j ≠ irq := by
      rintro rfl
      exact same rfl
    simp only [Function.update_of_ne same,other,decide_false,Bool.not_false,Bool.true_and]

theorem enabledEnable : enabled (gicdEnableInt irq g) j = (decide (j = irq) || enabled g j) := by
  unfold enabled gicdEnableInt
  by_cases same : j/32 = irq/32
  · simp only [same,Function.update_self,BitVec.getLsbD_or,intBitAt same]
    exact Bool.or_comm _ _
  · have other : j ≠ irq := by
      rintro rfl
      exact same rfl
    simp only [Function.update_of_ne same,other,decide_false,Bool.false_or]

theorem enabledConfig : enabled (gicPl390ConfigIrq irq attr prio g).2 j = (!decide (j = irq) && enabled g j) := by
  rw [← enabledDisable]
  unfold gicPl390ConfigIrq
  dsimp only
  split
  · rfl
  · rfl

end Bits

section Lines
variable {η ρ : Type}

def Matched (s : IrqManage η ρ Gicd) : Prop := ∀ i : Fin nrIrqs, i.val < gicIntMax → (enabled s.hw i = true ↔ (s.irqs i).handlers ≠ [])

def Wired (s : IrqManage η ρ Gicd) : Prop := ∀ i, (s.irqs i).ctrlrp = gicLines i

def Shares (s : IrqManage η ρ Gicd) : Call η ρ → Prop
  | .register mem irq attr prio _ _ => ∃ i, Accepted s mem irq attr prio i ∧ (s.irqs i).handlers ≠ []
  | .unregister _ _ => False

variable {s s' : IrqManage η ρ Gicd} {mem : Bool} {irq rc : Int} {attr prio : BitVec 32} {priv : ρ} {handler : Option η}

theorem wiredCtrlr {i ctrlr} (wired : Wired s) (found : (s.irqs i).ctrlrp = some ctrlr) :
    i.val < gicIntMax ∧ ctrlr = armGicCtrlr := by
  rw [wired i,gicLines] at found
  split at found
  · rename_i small
    exact ⟨small,(Option.some.inj found).symm⟩
  · cases found

theorem registerWired (wired : Wired s) (ok : irqRegisterHandler mem irq attr prio priv handler s = (rc,s')) : Wired s' :=
  registerLines (P := fun i linep => linep.ctrlrp = gicLines i) wired ok (fun i _ _ _ => wired i) fun i _ _ _ _ => wired i

theorem unregisterWired [DecidableEq η] (wired : Wired s) (ok : irqUnregisterHandler irq handler s = .ok (rc,s')) : Wired s' :=
  unregisterLines (P := fun i linep => linep.ctrlrp = gicLines i) wired ok wired

theorem registerMatched (wired : Wired s) (matched : Matched s) (ok : irqRegisterHandler mem irq attr prio priv handler s = (rc,s')) :
    Matched s' ↔ ¬ Shares s (.register mem irq attr prio priv handler) := by
  rw [Shares,acceptedIff ok]
  rcases registerCases ok with ⟨fails,rfl⟩ | ⟨i,ctrlr,configIrq,passes,done,-⟩
  · exact iff_of_true matched fun shares => fails shares.1
  obtain ⟨small,rfl⟩ := wiredCtrlr wired passes.found
  cases passes.config
  rcases configureCases done with ⟨zero,fails,_⟩ | ⟨rfl,hw,same,rfl⟩
  · exact absurd zero fails
  have bit : ∀ j : Fin nrIrqs, enabled hw j = if j = i then (s.irqs i).handlers.isEmpty else enabled s.hw j := by
    intro j
    have value : decide (j.val = i.val) = decide (j = i) := by simp only [Fin.ext_iff]
    rw [same]
    split
    · rename_i empty
      rw [show armGicCtrlr.enableIrq = gicdEnableInt from rfl,enabledEnable,enabledConfig,value,empty]
      by_cases here : j = i
      · simp [here]
      · simp [here]
    · rename_i some
      rw [enabledConfig,value]
      by_cases here : j = i
      · simpa [here] using some
      · simp [here]
  constructor
  · rintro all ⟨_,j,line,some⟩
    rw [passes.line] at line
    cases line
    have here := all i small
    rw [bit i,if_pos rfl] at here
    simp only [setSelf] at here
    exact some (List.isEmpty_iff.mp (here.mpr (by simp)))
  · intro apart j inside
    have empty : (s.irqs i).handlers = [] := by
      by_contra some
      exact apart ⟨rfl,i,passes.line,some⟩
    change enabled hw j = true ↔ _
    rw [bit j]
    by_cases here : j = i
    · subst here
      simp [empty]
    · simpa [here] using matched j inside

theorem unregisterMatched [DecidableEq η] (wired : Wired s) (matched : Matched s) (ok : irqUnregisterHandler irq handler s = .ok (rc,s')) :
    Matched s' := by
  rcases unregisterCases ok with rfl | ⟨i,entp,rest,line,_,member,_,done⟩
  · exact matched
  intro j inside
  rcases done with ⟨some,rfl⟩ | ⟨rfl,ctrlr,found,rfl⟩
  · by_cases here : j = i
    · subst here
      have before := (matched j inside).mpr (List.ne_nil_of_mem member)
      simpa [some] using before
    · simpa [here] using matched j inside
  · obtain ⟨_,rfl⟩ := wiredCtrlr wired found
    change enabled (gicdDisableInt i s.hw) j = true ↔ _
    rw [enabledDisable]
    by_cases here : j = i
    · subst here
      simp
    · have apart : j.val ≠ i.val := fun same => here (Fin.ext same)
      simpa [here,apart] using matched j inside

theorem linesEnabled [DecidableEq η] :
    (∀ (g : Gicd) (s : IrqManage η ρ Gicd), Runs (fun s c => ¬ Shares s c) (irqInitializeManager gicLines (initGicd g)) s → Matched s) ∧
    ∀ (s s' : IrqManage η ρ Gicd) c rc, Wired s → Matched s → step c s = .ok (rc,s') → (Matched s' ↔ ¬ Shares s c) := by
  have one : ∀ (s s' : IrqManage η ρ Gicd) c rc, Wired s → Matched s → step c s = .ok (rc,s') → (Matched s' ↔ ¬ Shares s c) := by
    intro s s' c rc wired matched next
    cases c with
    | register mem irq attr prio priv handler => exact registerMatched wired matched (Except.ok.inj next)
    | unregister irq handler => exact iff_of_true (unregisterMatched wired matched next) not_false
  refine ⟨fun g s runs => And.right (a := Wired s) ?_,one⟩
  refine runsInvariant (P := fun s => Wired s ∧ Matched s) ⟨fun i => rfl,fun i inside => ?_⟩ (fun s c rc s' both apart next => ?_) runs
  · have low : i.val/32 < 2 := by
      rw [gicIntMax] at inside
      omega
    have clear : enabled (initGicd g) i.val = false := by
      unfold enabled
      rw [show (initGicd g).enable (i.val/32) = 0 from if_pos low]
      exact BitVec.getLsbD_zero
    simp [irqInitializeManager,clear]
  · refine ⟨?_,(one s s' c rc both.1 both.2 next).mpr apart⟩
    cases c with
    | register mem irq attr prio priv handler => exact registerWired both.1 (Except.ok.inj next)
    | unregister irq handler => exact unregisterWired both.1 next

end Lines

def zeroGicd : Gicd := ⟨fun _ => 0,fun _ => 0,fun _ => 0,fun _ => 0,fun _ => 0⟩
def gicStart : IrqManage Nat Unit Gicd := irqInitializeManager gicLines (initGicd zeroGicd)
def withOne : IrqManage Nat Unit Gicd := (irqRegisterHandler true 33 0 1 () (some 1) gicStart).2
def withTwo : IrqManage Nat Unit Gicd := (irqRegisterHandler true 33 0 1 () (some 2) withOne).2

theorem firstIsEnabled : Matched withOne ∧ enabled withOne.hw 33 = true := by
  have next : step (.register true 33 0 1 () (some 1)) gicStart = .ok (0,withOne) := rfl
  have apart : ¬ Shares gicStart (.register true 33 0 1 () (some 1)) := by
    rintro ⟨i,_,some⟩
    exact some rfl
  exact ⟨linesEnabled.1 zeroGicd withOne (.call .start apart next),by decide⟩

theorem secondDisables : step (.register true 33 0 1 () (some 1)) gicStart = .ok (0,withOne) ∧
    step (.register true 33 0 1 () (some 2)) withOne = .ok (0,withTwo) ∧
    (withTwo.irqs 33).handlers.map (·.handler) = [some 1,some 2] ∧ enabled withTwo.hw 33 = false := ⟨rfl,rfl,by decide,by decide⟩

end TskSw.Gic
