import TskSw.Gic
import TskSw.IrqHandling

/-! The priority mask of an interrupt controller while handlers nest, and which lines the GIC of
`hal/aarch64/gic-pl390.c` lets through to a handler. -/
namespace TskSw.IrqMasks
open Interrupts IrqHandling Gic
open Irq (nrIrqs IrqManage IrqHandlerEnt Call irqInitializeManager irqRegisterHandler irqUnregisterHandler)
open BlkIo (Fault)

section Masks
variable {η ρ ξ σ γ : Type}

def SameMasks (mask : γ → σ → BitVec 8) (s s' : σ) : Prop := ∀ g, mask g s' = mask g s

theorem sameMasks (mask : γ → σ → BitVec 8) : Equivalence (SameMasks mask) where
  refl := fun _ _ => rfl
  symm := fun same g => (same g).symm
  trans := fun first second g => (second g).trans (first g)

structure MaskCtrlr (mask : γ → σ → BitVec 8) (g : γ) (irq : Nat) (c : Ctrlr σ) : Prop where
  gets : ∃ getPriority, c.getPriority = some getPriority ∧ ∀ s, (getPriority s).setWidth 8 = mask g s
  sets : ∃ setPriority, c.setPriority = some setPriority ∧ (∀ p s, mask g (setPriority p s) = p.setWidth 8) ∧
    ∀ p s h, h ≠ g → mask h (setPriority p s) = mask h s
  sends : ∀ eoi ∈ c.eoi, ∀ s, SameMasks mask s (eoi irq s)

structure BareCtrlr (mask : γ → σ → BitVec 8) (irq : Nat) (c : Ctrlr σ) : Prop where
  sets : c.setPriority = none
  disables : ∀ disableIrq ∈ c.disableIrq, ∀ s, SameMasks mask s (disableIrq irq s)
  enables : ∀ enableIrq ∈ c.enableIrq, ∀ s, SameMasks mask s (enableIrq irq s)
  sends : ∀ eoi ∈ c.eoi, ∀ s, SameMasks mask s (eoi irq s)

variable {mask : γ → σ → BitVec 8} {lines : Fin nrIrqs → Line η ρ σ} {findIrqs : List (Finder ξ σ)}
  {body : Invocation η ρ ξ → Handling η ρ ξ σ Int}

theorem maskLawful {g irq prio c} {level : σ → Prop} (ctrlr : MaskCtrlr mask g irq c)
    (opens : ∀ s, mask g s = prio.setWidth 8 → level s) : Lawful (SameMasks mask) level irq prio c := by
  obtain ⟨⟨getPriority,gets,reads⟩,⟨setPriority,sets,writes,apart⟩,sends⟩ := ctrlr
  have set : ∀ f ∈ c.setPriority, f = setPriority := fun f found => Option.some.inj (found.symm.trans sets)
  refine ⟨sends,fun none => ?_,fun none => ?_,fun f found p s s' same h => ?_,fun f found p q s h => ?_,fun f found f' found' s h => ?_,
    fun f found s => ?_,fun none => ?_⟩
  · rw [sets] at none
    cases none
  · rw [sets] at none
    cases none
  · rw [set f found]
    by_cases here : h = g
    · rw [here,writes,writes]
    · rw [apart _ _ _ here,apart _ _ _ here,same]
  · rw [set f found]
    by_cases here : h = g
    · rw [here,writes,writes]
    · rw [apart _ _ _ here,apart _ _ _ here,apart _ _ _ here]
  · rw [set f found,show f' = getPriority from Option.some.inj (found'.symm.trans gets)]
    by_cases here : h = g
    · rw [here,writes,reads]
    · rw [apart _ _ _ here]
  · rw [set f found]
    exact opens _ (writes _ _)
  · rw [sets] at none
    cases none

theorem bareLawful {irq prio c} (ctrlr : BareCtrlr mask irq c) : Lawful (SameMasks mask) (fun _ => True) irq prio c := by
  have never : ∀ f, f ∉ c.setPriority := fun f found => by
    rw [ctrlr.sets] at found
    cases found
  exact ⟨ctrlr.sends,fun _ => ctrlr.disables,fun _ => ctrlr.enables,fun f found => absurd found (never f),fun f found => absurd found (never f),
    fun f found => absurd found (never f),fun _ _ _ => trivial,fun _ _ => trivial⟩

def Restoring (mask : γ → σ → BitVec 8) (body : Invocation η ρ ξ → Handling η ρ ξ σ Int) : Prop :=
  ∀ p s, wp (logic (sameMasks mask) (fun _ _ => True) fun _ _ _ => True) (fun s => s.ie) (fun _ => True) (body p)
    (fun _ s' _ => SameMasks mask s.ctl s'.ctl) s []

theorem masksRestored {exc : ξ} {s : Cpu σ} {m : Machine (Cpu σ) (Invocation η ρ ξ) Fault}
    (ctrlrs : ∀ irq, ∀ c ∈ (lines irq).ctrlrp, (∃ g, MaskCtrlr mask g irq c) ∨ BareCtrlr mask irq c)
    (finds : ∀ findPending, some findPending ∈ findIrqs → ∀ exc s, SameMasks mask s (findPending exc s).2) (restoring : Restoring mask body)
    (run : (cpu lines findIrqs body).Reached ((cpu lines findIrqs body).begin exc s) m) :
    (∀ before entry rc log rest, m.frames = ⟨.trap before,entry,.done rc,log⟩ :: rest →
      m.shared.ie = entry.ie ∧ ∀ g, mask g m.shared.ctl = mask g entry.ctl) ∧
    (Equipped lines findIrqs → (∀ p, Plain (body p)) → ∃ m', (cpu lines findIrqs body).Reached m m' ∧ m'.frames = []) := by
  have rules : Rules (SameMasks mask) (fun _ _ => True) lines findIrqs := by
    refine ⟨sameMasks mask,fun _ _ _ _ _ => trivial,finds,fun irq c found => ?_⟩
    rcases ctrlrs irq c found with ⟨g,ctrlr⟩ | ctrlr
    · exact maskLawful ctrlr fun _ _ => trivial
    · exact bareLawful ctrlr
  have sound : Sound (logic (sameMasks mask) (fun _ _ => True) fun _ _ _ => True) (cpu lines findIrqs body) :=
    handlingSound rules fun p s _ => restoring p s
  refine ⟨fun before entry rc log rest top => ?_,fun equipped plain =>
    allReturn (fun _ => hasHandleIrq (anySteps lines findIrqs) (Or.inl equipped)) plain run⟩
  obtain ⟨ie,same,_⟩ := returning sound run top rfl rfl
  exact ⟨ie,same⟩

end Masks

structure Gic where
  gicd : Gicd
  pmr : BitVec 32

def gicPl390EnableIrq (irq : Nat) (g : Gic) : Gic := {g with gicd := gicdEnableInt irq g.gicd}
def gicPl390DisableIrq (irq : Nat) (g : Gic) : Gic := {g with gicd := gicdDisableInt irq g.gicd}
def gicPl390GetPriority (g : Gic) : BitVec 32 := g.pmr &&& 0xff
def gicPl390SetPriority (prio : BitVec 32) (g : Gic) : Gic := {g with pmr := prio &&& 0xff}
def gicPl390Eoi (irq : Nat) (g : Gic) : Gic := {g with gicd := gicdClearPending irq g.gicd}

def gicdProbePending (irq : Nat) (g : Gicd) : Bool := decide (g.pending (irq/32) &&& intBit irq ≠ 0)

theorem gicIntMaxLe : gicIntMax ≤ nrIrqs := by decide

def gicPl390FindPendingIrq (g : Gic) : Option (Fin nrIrqs) × Gic :=
  (((List.finRange gicIntMax).find? fun i => gicdProbePending i.val g.gicd).map (Fin.castLE gicIntMaxLe),g)

def gicPl390 : Ctrlr Gic :=
  ⟨some gicPl390EnableIrq,some gicPl390DisableIrq,some gicPl390GetPriority,some gicPl390SetPriority,some gicPl390Eoi⟩

theorem gicSameDriver : (∃ f, gicPl390.enableIrq = some f ∧ ∀ irq g, (f irq g).gicd = armGicCtrlr.enableIrq irq g.gicd) ∧
    ∃ f, gicPl390.disableIrq = some f ∧ ∀ irq g, (f irq g).gicd = armGicCtrlr.disableIrq irq g.gicd :=
  ⟨⟨_,rfl,fun _ _ => rfl⟩,_,rfl,fun _ _ => rfl⟩

def gicMask (_ : Unit) (g : Gic) : BitVec 8 := g.pmr.setWidth 8

theorem lowByte (x : BitVec 32) : (x &&& 0xff).setWidth 8 = x.setWidth 8 := by
  rw [BitVec.setWidth_and]
  exact BitVec.and_allOnes

theorem gicMasks (irq) : MaskCtrlr gicMask () irq gicPl390 where
  gets := ⟨_,rfl,fun s => lowByte s.pmr⟩
  sets := ⟨_,rfl,fun p _ => lowByte p,fun _ _ _ other => absurd rfl other⟩
  sends := fun eoi found s _ => by
    cases found
    rfl

section Lines
variable {η ρ ξ : Type}

def gicLine (s : IrqManage η ρ Gicd) (irq : Fin nrIrqs) : Line η ρ Gic :=
  ⟨(s.irqs irq).attr,(s.irqs irq).prio,(s.irqs irq).handlers,(s.irqs irq).ctrlrp.map fun _ => gicPl390⟩

def gicCpu (s : IrqManage η ρ Gicd) (body : Invocation η ρ ξ → Handling η ρ ξ Gic Int) : System (Cpu Gic) (Invocation η ρ ξ) ξ Fault :=
  cpu (gicLine s) [some fun _ => gicPl390FindPendingIrq] body

theorem gicLineCtrlr {s : IrqManage η ρ Gicd} {irq : Fin nrIrqs} {c : Ctrlr Gic} (found : c ∈ (gicLine s irq).ctrlrp) : c = gicPl390 := by
  obtain ⟨_,_,same⟩ := Option.map_eq_some_iff.mp found
  exact same.symm

theorem gicFinds (findPending : ξ → Gic → Option (Fin nrIrqs) × Gic) (here : some findPending ∈ [some fun (_ : ξ) => gicPl390FindPendingIrq])
    (exc s) : SameMasks gicMask s (findPending exc s).2 := by
  cases List.mem_singleton.mp here
  exact fun _ => rfl

end Lines

def prioField (g : Gicd) (irq : Nat) : BitVec 8 := (g.ipriorityr (irq/4) >>> (irq%4*8)).setWidth 8

def delivers (g : Gic) (irq : Nat) : Bool := gicdProbePending irq g.gicd && decide (prioField g.gicd irq < gicMask () g)

section Fields
variable {g : Gicd} {irq j : Nat} {prio attr : BitVec 32}

theorem prioFieldBit (k) (small : k < 8) : (prioField g irq).getLsbD k = (g.ipriorityr (irq/4)).getLsbD (irq%4*8+k) := by
  simp [prioField,small]

theorem byteBit (k : Nat) : (0xff#32).getLsbD k = decide (k < 8) := by
  rw [show 0xff#32 = (BitVec.allOnes 8).setWidth 32 from rfl,BitVec.getLsbD_setWidth,BitVec.getLsbD_allOnes]
  by_cases small : k < 8
  · simp [small,show k < 32 by omega]
  · simp [small]

theorem setFieldBit {reg shift n} (byte : ∀ k, 8 ≤ k → prio.getLsbD k = false) (inside : n < 32) :
    (setField reg 0xff shift prio).getLsbD n = if shift ≤ n ∧ n < shift+8 then prio.getLsbD (n-shift) else reg.getLsbD n := by
  simp only [setField,BitVec.getLsbD_or,BitVec.getLsbD_and,BitVec.getLsbD_not,BitVec.getLsbD_shiftLeft,inside,decide_true,Bool.true_and]
  rw [show (0xff : BitVec 32) = 0xff#32 from rfl,byteBit]
  by_cases below : n < shift
  · simp [below,show ¬ (shift ≤ n ∧ n < shift+8) by omega]
  · by_cases above : n < shift+8
    · simp [below,above,show n-shift < 8 by omega,show shift ≤ n by omega]
    · simp [below,above,show ¬ n-shift < 8 by omega,byte (n-shift) (by omega)]

theorem prioFieldSet (byte : ∀ k, 8 ≤ k → prio.getLsbD k = false) :
    prioField (gicdSetPriority irq prio g) j = if j = irq then prio.setWidth 8 else prioField g j := by
  apply BitVec.eq_of_getLsbD_eq
  intro k small
  rw [prioFieldBit k small]
  have inside : j%4*8+k < 32 := by omega
  by_cases same : j/4 = irq/4
  · simp only [gicdSetPriority,same,Function.update_self,setFieldBit byte inside]
    by_cases here : j = irq
    · subst here
      rw [if_pos (by omega),if_pos rfl,Nat.add_sub_cancel_left]
      simp [small]
    · rw [if_neg (by omega),if_neg here,prioFieldBit k small,same]
  · have other : j ≠ irq := by
      rintro rfl
      exact same rfl
    rw [if_neg other,prioFieldBit k small]
    simp only [gicdSetPriority,Function.update_of_ne same]

def encoded (prio : BitVec 32) : BitVec 32 := (prio &&& gicPriMask) <<< gicPriShift

theorem encodedByte (prio k) (high : 8 ≤ k) : (encoded prio).getLsbD k = false := by
  have nibble : (0x0f#32).getLsbD (k-4) = false := by
    have large : 15 < 2^(k-4) := Nat.lt_of_lt_of_le (by decide : 15 < 2^4) (Nat.pow_le_pow_right (by decide) (by omega))
    simp [BitVec.getLsbD_ofNat,Nat.testBit_lt_two_pow large]
  simp only [encoded,gicPriShift,gicPriMask,BitVec.getLsbD_shiftLeft,BitVec.getLsbD_and]
  rw [show (0x0f : BitVec 32) = 0x0f#32 from rfl,nibble]
  simp

theorem encodedValue (small : prio.toNat ≤ 15) : ((encoded prio).setWidth 8).toNat = 16*prio.toNat ∧ (prio.setWidth 8).toNat = prio.toNat := by
  have all : ∀ n : Fin 16, ((encoded (BitVec.ofNat 32 n)).setWidth 8).toNat = 16*n.val ∧ ((BitVec.ofNat 32 n).setWidth 8).toNat = n.val := by
    decide
  have one := all ⟨prio.toNat,by omega⟩
  rw [BitVec.ofNat_toNat,BitVec.setWidth_eq] at one
  exact one

theorem configField : prioField (gicPl390ConfigIrq irq attr prio g).2 j = if j = irq then (encoded prio).setWidth 8 else prioField g j := by
  unfold gicPl390ConfigIrq
  dsimp only
  split
  · exact prioFieldSet (encodedByte prio)
  · exact prioFieldSet (encodedByte prio)

end Fields

section Registered
variable {η ρ ξ : Type} {s s' : IrqManage η ρ Gicd} {rc : Int}

structure Tuned (s : IrqManage η ρ Gicd) : Prop where
  wired : Wired s
  small : ∀ i, (s.irqs i).prio.toNat ≤ 15
  fields : ∀ i, (s.irqs i).handlers ≠ [] → prioField s.hw i = (encoded (s.irqs i).prio).setWidth 8

def SmallPrio : Call η ρ → Prop
  | .register _ _ _ prio _ _ => prio.toNat ≤ 15
  | .unregister _ _ => True

theorem registerTuned {mem irq attr prio priv handler} (tuned : Tuned s) (small : prio.toNat ≤ 15)
    (ok : irqRegisterHandler mem irq attr prio priv handler s = (rc,s')) : Tuned s' := by
  refine ⟨registerWired tuned.wired ok,?_,?_⟩
  · exact Irq.registerLines (P := fun _ linep => linep.prio.toNat ≤ 15) tuned.small ok (fun _ _ _ _ => small) fun _ _ _ _ _ => small
  rcases Irq.registerCases ok with ⟨_,rfl⟩ | ⟨i,ctrlr,configIrq,passes,done,-⟩
  · exact tuned.fields
  obtain ⟨_,rfl⟩ := wiredCtrlr tuned.wired passes.found
  cases passes.config
  rcases Irq.configureCases done with ⟨zero,fails,_⟩ | ⟨rfl,hw,same,rfl⟩
  · exact absurd zero fails
  have field : ∀ j : Fin nrIrqs, prioField hw j = if j = i then (encoded prio).setWidth 8 else prioField s.hw j := by
    intro j
    have configured : prioField (gicPl390ConfigIrq i attr prio s.hw).2 j = if j.val = i.val then (encoded prio).setWidth 8 else prioField s.hw j :=
      configField
    simp only [Fin.val_inj] at configured
    rw [same,← configured]
    split
    · rfl
    · rfl
  intro j some
  change prioField hw j = _
  rw [field j]
  by_cases here : j = i
  · subst here
    simp
  · rw [if_neg here]
    simp only [Irq.setOther here] at some ⊢
    exact tuned.fields j some

theorem unregisterTuned [DecidableEq η] {irq handler} (tuned : Tuned s)
    (ok : irqUnregisterHandler irq handler s = .ok (rc,s')) : Tuned s' := by
  refine ⟨unregisterWired tuned.wired ok,?_,?_⟩
  · exact Irq.unregisterLines (P := fun _ linep => linep.prio.toNat ≤ 15) tuned.small ok tuned.small
  rcases Irq.unregisterCases ok with rfl | ⟨i,entp,rest,_,_,member,_,done⟩
  · exact tuned.fields
  intro j some
  rcases done with ⟨_,rfl⟩ | ⟨none,ctrlr,found,rfl⟩
  · by_cases here : j = i
    · subst here
      simpa using tuned.fields j (List.ne_nil_of_mem member)
    · simp only [Irq.setOther here,Irq.setHw] at some ⊢
      exact tuned.fields j some
  · by_cases here : j = i
    · subst here
      simp [none] at some
    · obtain ⟨_,rfl⟩ := wiredCtrlr tuned.wired found
      simp only [Irq.setOther here] at some ⊢
      exact tuned.fields j some

theorem runTuned [DecidableEq η] {g} (runs : Irq.Runs (fun _ c => SmallPrio c) (irqInitializeManager gicLines (initGicd g)) s) : Tuned s := by
  refine Irq.runsInvariant (P := Tuned) ⟨fun _ => rfl,fun _ => Nat.zero_le _,fun _ some => absurd rfl some⟩
    (fun s c rc s' tuned small next => ?_) runs
  cases c with
  | register mem irq attr prio priv handler => exact registerTuned tuned small (Except.ok.inj next)
  | unregister irq handler => exact unregisterTuned tuned next

def Gentle (x : Handling η ρ ξ Gic Int) : Prop :=
  Within (fun f => ∀ s, gicMask () (f s).ctl = gicMask () s.ctl ∧ (f s).ctl.gicd.ipriorityr = s.ctl.gicd.ipriorityr) (fun _ => False)
    (fun _ => True) x

variable {body : Invocation η ρ ξ → Handling η ρ ξ Gic Int} {exc : ξ} {start : Cpu Gic} {m : Machine (Cpu Gic) (Invocation η ρ ξ) Fault}
  {i j : Fin nrIrqs}

theorem gicRules (s : IrqManage η ρ Gicd) :
    Rules (SameMasks gicMask) (fun irq g => gicMask () g = (s.irqs irq).prio.setWidth 8) (gicLine s)
      [some fun (_ : ξ) => gicPl390FindPendingIrq] where
  equiv := sameMasks gicMask
  stable := fun _ _ _ same level => (same ()).trans level
  finds := gicFinds
  lawful := fun irq c found => by
    rw [gicLineCtrlr found]
    exact maskLawful (gicMasks irq) fun _ level => level

def serving (m : Machine (Cpu Gic) (Invocation η ρ ξ) Fault) : Option (Fin nrIrqs) :=
  match m.frames with
  | ⟨.proc p,_,_,_⟩ :: _ => some p.irq
  | _ => none

theorem servingTop {i} (serves : serving m = some i) : ∃ f rest p, m.frames = f :: rest ∧ f.origin = .proc p ∧ p.irq = i := by
  unfold serving at serves
  split at serves
  · rename_i p entry code log rest top
    exact ⟨_,rest,p,top,rfl,Option.some.inj serves⟩
  · cases serves

theorem handlerMask (gentle : ∀ p, Gentle (body p)) (run : (gicCpu s body).Reached ((gicCpu s body).begin exc start) m)
    (serves : serving m = some i) :
    gicMask () m.shared.ctl = (s.irqs i).prio.setWidth 8 := by
  have sound : Sound (logic (sameMasks gicMask) (fun irq g => gicMask () g = (s.irqs irq).prio.setWidth 8) fun _ e s => SameMasks gicMask e.ctl s.ctl)
      (gicCpu s body) := by
    refine handlingSound (gicRules s) fun p e _ => ?_
    have within : Within (fun f => ∀ s : Cpu Gic, SameMasks gicMask s.ctl (f s).ctl) (fun _ => False) (fun _ => True) (body p) :=
      withinMono (gentle p) (fun _ same s _ => (same s).1) (fun _ no => no) fun _ yes => yes
    exact wpWithin (R := fun s s' : Cpu Gic => SameMasks gicMask s.ctl s'.ctl) (fun first second g => (second g).trans (first g))
      (fun _ _ kept => kept.2) within fun _ => rfl
  obtain ⟨f,rest,p,top,handler,rfl⟩ := servingTop serves
  obtain ⟨level,same⟩ := running sound run top handler
  exact (same ()).trans level

theorem fieldsStay (gentle : ∀ p, Gentle (body p)) (run : (gicCpu s body).Reached ((gicCpu s body).begin exc start) m) :
    m.shared.ctl.gicd.ipriorityr = start.ctl.gicd.ipriorityr := by
  have steps : Steps (fun f : Cpu Gic → Cpu Gic => ∀ s, s.ctl.gicd.ipriorityr = start.ctl.gicd.ipriorityr →
      (f s).ctl.gicd.ipriorityr = start.ctl.gicd.ipriorityr) (gicLine s) [some fun (_ : ξ) => gicPl390FindPendingIrq] := by
    refine ⟨fun _ same => same,fun _ _ same => same,fun findPending here exc s same => ?_,fun irq c found => ?_⟩
    · cases List.mem_singleton.mp here
      exact same
    · rw [gicLineCtrlr found]
      refine ⟨fun _ here => ?_,fun _ here => ?_,fun _ here => ?_,fun _ here => ?_⟩
      · cases here
        exact fun _ same => same
      · cases here
        exact fun _ same => same
      · cases here
        exact fun _ _ same => same
      · cases here
        exact fun _ same => same
  have trap : ∀ exc : ξ, Within (fun f : Cpu Gic → Cpu Gic => ∀ s, s.ctl.gicd.ipriorityr = start.ctl.gicd.ipriorityr →
      (f s).ctl.gicd.ipriorityr = start.ctl.gicd.ipriorityr) (fun _ => True) (fun _ => True) ((gicCpu s body).trap exc) :=
    fun _ => hasHandleIrq steps (Or.inr fun _ => trivial)
  refine (reachedKeeps (I := fun s => s.ctl.gicd.ipriorityr = start.ctl.gicd.ipriorityr) (fun p => ?_) trap (fun _ same => same)
    (fun _ _ same => same) run ⟨rfl,?_⟩).1
  · exact withinMono (gentle p) (fun _ kept s same => (kept s).2.trans same) (fun _ no => no.elim) fun _ yes => yes
  · exact fun f here => by
      cases List.mem_singleton.mp here
      exact trap exc

theorem urgentNests [DecidableEq η] {g : Gicd} (runs : Irq.Runs (fun _ c => SmallPrio c) (irqInitializeManager gicLines (initGicd g)) s)
    (gentle : ∀ p, Gentle (body p)) (fields : start.ctl.gicd.ipriorityr = s.hw.ipriorityr)
    (run : (gicCpu s body).Reached ((gicCpu s body).begin exc start) m) (serves : serving m = some i) (registered : (s.irqs j).handlers ≠ [])
    (pending : gicdProbePending j m.shared.ctl.gicd = true) :
    (delivers m.shared.ctl j = true ↔ (s.irqs j).prio < (s.irqs i).prio) ↔ (s.irqs j).prio = 0 ∨ (s.irqs i).prio ≤ (s.irqs j).prio := by
  have tuned := runTuned runs
  have field : prioField m.shared.ctl.gicd j = (encoded (s.irqs j).prio).setWidth 8 := by
    rw [← tuned.fields j registered,prioField,(fieldsStay gentle run).trans fields,prioField]
  rw [delivers,pending,Bool.true_and,decide_eq_true_iff,field,handlerMask gentle run serves,BitVec.lt_def,BitVec.lt_def,BitVec.le_def,
    ← BitVec.toNat_inj,
    (encodedValue (tuned.small j)).1,(encodedValue (tuned.small i)).2]
  have high := tuned.small i
  change _ ↔ (s.irqs j).prio.toNat = 0 ∨ _
  omega

end Registered

def addLine (irq : Int) (prio : BitVec 32) (s : IrqManage Nat Unit Gicd) : IrqManage Nat Unit Gicd :=
  (irqRegisterHandler true irq 0 prio () (some irq.toNat) s).2
def board : IrqManage Nat Unit Gicd := addLine 35 1 (addLine 34 0 (addLine 33 2 gicStart))

theorem boardRuns : Irq.Runs (fun _ c => SmallPrio c) (irqInitializeManager gicLines (initGicd zeroGicd)) board :=
  .call (c := .register true 35 0 1 () (some 35)) (.call (c := .register true 34 0 0 () (some 34))
    (.call (c := .register true 33 0 2 () (some 33)) .start (by decide : 2 ≤ 15) rfl) (by decide : 0 ≤ 15) rfl) (by decide : 1 ≤ 15) rfl

def interrupted : Cpu Gic := ⟨true,⟨{board.hw with pending := fun i => if i = 1 then 0xe else 0},0xff⟩⟩

def closing : Invocation Nat Unit Unit → Handling Nat Unit Unit Gic Int := fun _ => do
  let prio ← fromCtl fun g => (gicPl390GetPriority g,g)
  onCtl (gicPl390SetPriority 0)
  onCtl (gicPl390SetPriority prio)
  pure irqHandled

theorem closingRestores : Restoring gicMask closing := by
  intro p s s₁ first
  refine ⟨trivial,fun s₂ _ => ⟨trivial,fun s₃ _ => ⟨trivial,fun s₄ fourth => ⟨trivial,fun g => ?_⟩⟩⟩⟩
  calc gicMask g s₄.ctl = ((s₁.ctl.pmr &&& 0xff) &&& 0xff).setWidth 8 := (laterKeeps fourth).2 g
    _ = gicMask g s₁.ctl := by rw [lowByte,lowByte]; rfl
    _ = gicMask g s.ctl := (laterKeeps first).2 g

def nested (m : Machine (Cpu Gic) (Invocation Nat Unit Unit) Fault) : Option (Int × Bool × BitVec 8) :=
  match m.frames with
  | ⟨.trap _,entry,.done rc,_⟩ :: _ :: _ => some (rc,entry.ie,gicMask () entry.ctl)
  | _ => none

theorem nestedRestores : ∃ m entry rc, (gicCpu board closing).Reached ((gicCpu board closing).begin () interrupted) m ∧
    (∃ before log f rest, m.frames = ⟨.trap before,entry,.done rc,log⟩ :: f :: rest) ∧
    gicMask () entry.ctl = 2 ∧ gicMask () m.shared.ctl = 2 ∧ m.shared.ie = false := by
  have ran : ((gicCpu board closing).play (List.replicate 13 (.run 0) ++ [.interrupt ()] ++ List.replicate 22 (.run 0))
      ((gicCpu board closing).begin () interrupted)).map nested = some (some (0,false,2)) := by decide +kernel
  obtain ⟨m,run,seen⟩ := played ran
  have ctrlrs : ∀ irq, ∀ c ∈ (gicLine board irq).ctrlrp, (∃ g, MaskCtrlr gicMask g irq c) ∨ BareCtrlr gicMask irq c := by
    intro irq c found
    rw [gicLineCtrlr found]
    exact Or.inl ⟨(),gicMasks irq⟩
  unfold nested at seen
  split at seen
  · rename_i before entry rc log f rest top
    obtain ⟨ie,same⟩ := (masksRestored ctrlrs gicFinds closingRestores run).1 before entry rc log (f :: rest) top
    simp only [Option.some.injEq,Prod.mk.injEq] at seen
    obtain ⟨rfl,off,mask⟩ := seen
    exact ⟨m,entry,0,run,⟨before,log,f,rest,top⟩,mask,(same ()).trans mask,ie.trans off⟩
  · cases seen

def quiet : Invocation Nat Unit Unit → Handling Nat Unit Unit Gic Int := fun _ => pure irqHandled

theorem quietGentle (p) : Gentle (quiet p) := trivial

theorem zeroNests : ∃ m, (gicCpu board quiet).Reached ((gicCpu board quiet).begin () interrupted) m ∧ serving m = some 33 ∧
    m.shared.ie = true ∧
    delivers m.shared.ctl 34 = true := by
  have ran : ((gicCpu board quiet).play (List.replicate 13 (.run 0)) ((gicCpu board quiet).begin () interrupted)).map
      (fun m => (serving m,m.shared.ie,gicdProbePending 34 m.shared.ctl.gicd)) = some (some 33,true,true) := by decide +kernel
  obtain ⟨m,run,seen⟩ := played ran
  simp only [Prod.mk.injEq] at seen
  obtain ⟨serves,ie,pending⟩ := seen
  have exact_ := (urgentNests (j := 34) boardRuns quietGentle rfl run serves (by decide) pending).mpr (Or.inl (by decide))
  exact ⟨m,run,serves,ie,exact_.mpr (by decide)⟩

theorem oneWaits : ∃ m, (gicCpu board quiet).Reached ((gicCpu board quiet).begin () interrupted) m ∧ serving m = some 33 ∧
    m.shared.ie = true ∧
    (board.irqs 35).prio < (board.irqs 33).prio ∧ gicdProbePending 35 m.shared.ctl.gicd = true ∧ delivers m.shared.ctl 35 = false := by
  have ran : ((gicCpu board quiet).play (List.replicate 13 (.run 0)) ((gicCpu board quiet).begin () interrupted)).map
      (fun m => (serving m,m.shared.ie,gicdProbePending 35 m.shared.ctl.gicd,delivers m.shared.ctl 35)) = some (some 33,true,true,false) := by
    decide +kernel
  obtain ⟨m,run,seen⟩ := played ran
  simp only [Prod.mk.injEq] at seen
  obtain ⟨serves,ie,pending,waits⟩ := seen
  exact ⟨m,run,serves,ie,by decide,pending,waits⟩

end TskSw.IrqMasks
