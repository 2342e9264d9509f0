import TskSw.Errno
import TskSw.KernList
import TskSw.BlkIo

/-! The ready queue of `kern/ready_queue.c`: sixteen lists and a bitmap of those that have
threads, with `find_msr_bit` of `common/bitops.c`, the selection of `kern/sched.c` and the
part of `thr_create_thread` that chooses the priority. A thread is added only while it is in
no list: when it is created, and when it is woken up. -/
namespace TskSw.ReadyQueue
open CircularLists KernList
open BlkIo (Fault)
open Function (update update_of_ne update_self)

def rdqUserRrPriority : Nat := 0
abbrev rdqPriorityMax : Nat := 16

abbrev Prio := Fin rdqPriorityMax

inductive ThreadList where
  | ready (p : Prio)
  | reaper
  deriving DecidableEq

structure Attr where
  stackTop : BitVec 64
  stackSize : BitVec 64
  prio : BitVec 32

structure RunQueue (τ : Type) where
  bitmap : BitVec 32
  links : Links (Node ThreadList τ)
  prio : τ → BitVec 32

variable {τ : Type} {s : RunQueue τ}

section Functions
variable [DecidableEq τ]

def rdqInitReadyQueue : RunQueue τ := ⟨0,unlinked,fun _ => 0⟩

def headAt (i : BitVec 32) : Except Fault Prio := if h : i.toNat < rdqPriorityMax then .ok ⟨i.toNat,h⟩ else .error .outOfBounds

def rdqAddThread (t : τ) (s : RunQueue τ) : Except Fault (RunQueue τ) := do
  let p ← headAt (s.prio t)
  pure {s with links := listAdd s.links (.head (.ready p)) (.node t), bitmap := s.bitmap ||| 1#32 <<< (s.prio t).toNat}

def rdqRemoveThread (t : τ) (s : RunQueue τ) : Except Fault (RunQueue τ) := do
  let links := listDel s.links (.node t)
  let p ← headAt (s.prio t)
  pure {s with links := links,
               bitmap := if listIsEmpty links (.head (.ready p)) then s.bitmap &&& ~~~(1#32 <<< (s.prio t).toNat) else s.bitmap}

def rdqRotateQueue (s : RunQueue τ) : RunQueue τ := {s with links := listRotate s.links (.head (.ready ⟨rdqUserRrPriority,by decide⟩))}

-- The mask is an unsigned long, so the `int` is widened with its sign.
def msrLoop (x : BitVec 32) : Nat → Option Nat
  | 0 => none
  | i+1 => if x.signExtend 64 &&& 1#64 <<< i ≠ 0 then some i else msrLoop x i

def findMsrBit (x : BitVec 32) : Option Nat := if x = 0 then none else msrLoop x 32

def rdqFindRunnableThread (s : RunQueue τ) : Except Fault (Option τ) :=
  match findMsrBit s.bitmap with
  | none => .ok none
  | some idx => do
      let p ← headAt (BitVec.ofNat 32 idx)
      if listIsEmpty s.links (.head (.ready p)) then .error .assertion
      else
        match listRefTop s.links (.head (.ready p)) with
        | .node t => .ok (some t)
        | .head _ => .error .outOfBounds

def selectNextThread (idle : τ) (s : RunQueue τ) : Except Fault τ := do
  match ← rdqFindRunnableThread s with
  | none => pure idle
  | some t => pure t

def priorityOf (attrp : Option Attr) : BitVec 32 :=
  match attrp with
  | some attr => if attr.prio.toInt < rdqPriorityMax ∧ (rdqUserRrPriority : Int) < attr.prio.toInt then attr.prio else 0
  | none => 0

def needsStack (attrp : Option Attr) : Bool :=
  match attrp with
  | some attr => attr.stackTop == 0 || attr.stackSize == 0
  | none => true

def thrCreateThread (attrp : Option Attr) (memalign : Bool) (thr : Option τ) (s : RunQueue τ) : Except Fault (Int × RunQueue τ) :=
  if needsStack attrp && !memalign then .ok (enomem,s)
  else
    match thr with
    | none => .ok (enomem,s)
    | some t => do
        let s ← rdqAddThread t {s with prio := update s.prio t (priorityOf attrp), links := initListNode s.links (.node t)}
        pure (0,s)

inductive Op (τ : Type) where
  | create (attrp : Option Attr) (memalign : Bool) (thr : Option τ)
  | add (t : τ)
  | remove (t : τ)
  | rotate

def step : Op τ → RunQueue τ → Except Fault (RunQueue τ)
  | .create attrp memalign thr,s => do
      let (_,s) ← thrCreateThread attrp memalign thr s
      pure s
  | .add t,s => rdqAddThread t s
  | .remove t,s => rdqRemoveThread t s
  | .rotate,s => pure (rdqRotateQueue s)

end Functions

structure Fifo (τ : Type) where
  queue : ThreadList → List τ
  prio : τ → Prio

section Specification
variable [DecidableEq τ]

def Op.born : Op τ → Option τ
  | .create attrp memalign thr => if needsStack attrp && !memalign then none else thr
  | _ => none

def Op.asked : Op τ → Prio
  | .create attrp _ _ => Fin.ofNat _ (priorityOf attrp).toNat
  | _ => 0

def Fifo.enter (f : Fifo τ) (t : τ) : Fifo τ := {f with queue := update f.queue (.ready (f.prio t)) (f.queue (.ready (f.prio t)) ++ [t])}

def Fifo.step (f : Fifo τ) (op : Op τ) : Fifo τ :=
  match op with
  | .create _ _ _ =>
    match op.born with
    | none => f
    | some t => Fifo.enter {f with prio := update f.prio t op.asked} t
  | .add t => f.enter t
  | .remove t => {f with queue := fun k => (f.queue k).erase t}
  | .rotate => {f with queue := update f.queue (.ready 0) ((f.queue (.ready 0)).rotate 1)}

def fifo : List (Op τ) → Fifo τ
  | [] => ⟨fun _ => [],fun _ => 0⟩
  | op :: ops => (fifo ops).step op

def threads (ops : List (Op τ)) : List τ := ops.filterMap Op.born

def Legal (idle : τ) (ops : List (Op τ)) (op : Op τ) : Prop :=
  match op with
  | .create _ _ _ => ∀ t, op.born = some t → t ≠ idle ∧ t ∉ threads ops
  | .add t => t ∈ threads ops ∧ ∀ k, t ∉ (fifo ops).queue k
  | .remove t => t ∈ threads ops
  | .rotate => True

inductive Runs (idle : τ) : List (Op τ) → RunQueue τ → Prop where
  | start : Runs idle [] rdqInitReadyQueue
  | step {ops : List (Op τ)} {op : Op τ} {s s' : RunQueue τ} (before : Runs idle ops s) (legal : Legal idle ops op)
      (next : step op s = .ok s') : Runs idle (op :: ops) s'

structure Holds (f : Fifo τ) (s : RunQueue τ) : Prop where
  forest : Forest s.links f.queue
  bits : ∀ p : Prio, s.bitmap.getLsbD p = true ↔ f.queue (.ready p) ≠ []
  high : ∀ i, rdqPriorityMax ≤ i → s.bitmap.getLsbD i = false
  prio : ∀ t, (s.prio t).toNat = f.prio t
  own : ∀ p t, t ∈ f.queue (.ready p) → f.prio t = p

end Specification

section Lists
variable [DecidableEq τ] {f : Fifo τ} {t : τ}

omit [DecidableEq τ] in
theorem headOwn (h : Holds f s) (t) : headAt (s.prio t) = .ok (f.prio t) := by
  have inside : (s.prio t).toNat < rdqPriorityMax := by
    rw [h.prio]
    exact (f.prio t).isLt
  simp only [headAt,dif_pos inside]
  exact congrArg _ (Fin.ext (h.prio t))

omit [DecidableEq τ] in
theorem enteredMem {u k} (member : u ∈ (f.enter t).queue k) : u = t ∧ k = .ready (f.prio t) ∨ u ∈ f.queue k := by
  by_cases here : k = .ready (f.prio t)
  · subst here
    simp only [Fifo.enter,update_self,List.mem_append,List.mem_singleton] at member
    exact member.symm.imp (⟨·,rfl⟩) id
  · simp only [Fifo.enter,update_of_ne here] at member
    exact Or.inr member

omit [DecidableEq τ] in
theorem rotatedMem {q : ThreadList → List τ} {u : τ} {k l : ThreadList} : u ∈ update q l ((q l).rotate 1) k ↔ u ∈ q k := by
  by_cases here : k = l
  · subst here
    simp
  · simp [here]

theorem oneBit {w p : Nat} (i) (small : p < w) : (1#w <<< p).getLsbD i = decide (i = p) := by
  simp only [BitVec.getLsbD_shiftLeft,BitVec.getLsbD_one]
  grind

theorem addHolds (h : Holds f s) (fresh : ∀ k, t ∉ f.queue k) : ∃ s', rdqAddThread t s = .ok s' ∧ Holds (f.enter t) s' := by
  have small : (f.prio t : Nat) < 32 := (f.prio t).isLt.trans (by decide)
  have ran : rdqAddThread t s = .ok {s with links := listAdd s.links (.head (.ready (f.prio t))) (.node t),
                                            bitmap := s.bitmap ||| 1#32 <<< (s.prio t).toNat} := by
    simp only [rdqAddThread,headOwn h]
    rfl
  refine ⟨_,ran,addForest h.forest fresh,fun p => ?_,fun i high => ?_,h.prio,fun p u member => ?_⟩
  · rw [BitVec.getLsbD_or,h.prio,oneBit _ small]
    by_cases here : p = f.prio t
    · simp [Fifo.enter,here]
    · have other : (p : Nat) ≠ f.prio t := fun e => here (Fin.ext e)
      simpa [Fifo.enter,here,other] using h.bits p
  · have far : i ≠ f.prio t := by
      have := (f.prio t).isLt
      omega
    rw [BitVec.getLsbD_or,h.prio,oneBit _ small,h.high i high]
    simp [far]
  · rcases enteredMem member with ⟨rfl,same⟩ | member
    · exact (ThreadList.ready.inj same).symm
    · exact h.own p u member

theorem removeHolds (h : Holds f s) (t) :
    ∃ s', rdqRemoveThread t s = .ok s' ∧ Holds {f with queue := fun k => (f.queue k).erase t} s' := by
  have small : (f.prio t : Nat) < 32 := (f.prio t).isLt.trans (by decide)
  have forest := delForest h.forest t
  have ran : rdqRemoveThread t s = .ok {s with links := listDel s.links (.node t),
                                               bitmap := if listIsEmpty (listDel s.links (.node t)) (.head (.ready (f.prio t)))
                                                 then s.bitmap &&& ~~~(1#32 <<< (s.prio t).toNat) else s.bitmap} := by
    simp only [rdqRemoveThread,headOwn h]
    rfl
  refine ⟨_,ran,forest,fun p => ?_,fun i high => ?_,h.prio,fun p u member => h.own p u (List.mem_of_mem_erase member)⟩
  · by_cases here : p = f.prio t
    · subst here
      dsimp only
      rw [h.prio]
      by_cases empty : (f.queue (.ready (f.prio t))).erase t = []
      · rw [if_pos ((isEmptyForest forest).mpr empty)]
        simp [empty,oneBit _ small]
      · rw [if_neg (fun e => empty ((isEmptyForest forest).mp e)),h.bits]
        refine iff_of_true (fun none => empty ?_) empty
        rw [none,List.erase_nil]
    · have other : (p : Nat) ≠ f.prio t := fun e => here (Fin.ext e)
      have away : t ∉ f.queue (.ready p) := fun member => here (h.own p t member).symm
      dsimp only
      rw [List.erase_of_not_mem away,h.prio]
      split
      · have low : (p : Nat) < 32 := p.isLt.trans (by decide)
        rw [BitVec.getLsbD_and,BitVec.getLsbD_not,oneBit _ small,decide_eq_false other,decide_eq_true low]
        simpa using h.bits p
      · exact h.bits p
  · dsimp only
    split
    · simp [h.high i high]
    · exact h.high i high

theorem rotateHolds (h : Holds f s) :
    Holds {f with queue := update f.queue (.ready 0) ((f.queue (.ready 0)).rotate 1)} (rdqRotateQueue s) := by
  refine ⟨rotateForest h.forest,fun p => ?_,h.high,h.prio,fun p u member => ?_⟩
  · by_cases here : p = 0
    · subst here
      have bit := h.bits 0
      simpa [rdqRotateQueue] using bit
    · simpa [rdqRotateQueue,here] using h.bits p
  · exact h.own p u (rotatedMem.mp member)

omit [DecidableEq τ] in
theorem reaperHolds {links l} (h : Holds f s) (forest : Forest links (update f.queue .reaper l)) :
    Holds {f with queue := update f.queue .reaper l} {s with links := links} := by
  refine ⟨forest,fun p => ?_,h.high,h.prio,fun p u member => ?_⟩
  · simpa using h.bits p
  · exact h.own p u (by simpa using member)

end Lists

section Selection
variable [DecidableEq τ] {f : Fifo τ}

theorem testedBit (x : BitVec 32) {i : Nat} (small : i < 32) : x.signExtend 64 &&& 1#64 <<< i ≠ 0 ↔ x.getLsbD i = true := by
  constructor
  · intro some
    by_contra clear
    refine some (BitVec.eq_of_getLsbD_eq fun j _ => ?_)
    by_cases here : j = i
    · subst here
      rw [BitVec.getLsbD_and,BitVec.getLsbD_signExtend,if_pos small,Bool.eq_false_iff.mpr clear]
      simp
    · have : ¬ (j - i = 0 ∧ i ≤ j) := by omega
      simp only [BitVec.getLsbD_and,BitVec.getLsbD_shiftLeft,BitVec.getLsbD_one]
      grind
  · intro set zero
    have bit := congrArg (fun y => y.getLsbD i) zero
    have wide : i < 64 := by omega
    rw [BitVec.getLsbD_and,BitVec.getLsbD_signExtend,if_pos small,set] at bit
    simp [wide] at bit

theorem msrLoopSpec (x : BitVec 32) {n} (small : n ≤ 32) :
    match msrLoop x n with
    | none => ∀ j < n, x.getLsbD j = false
    | some i => i < n ∧ x.getLsbD i = true ∧ ∀ j, i < j → j < n → x.getLsbD j = false := by
  induction n with
  | zero => exact fun j absurd => by omega
  | succ n ih =>
    unfold msrLoop
    have tested := testedBit x (show n < 32 by omega)
    by_cases set : x.getLsbD n = true
    · rw [if_pos (tested.mpr set)]
      exact ⟨by omega,set,fun j above below => by omega⟩
    · rw [if_neg (fun e => set (tested.mp e))]
      have before := ih (by omega)
      have clear : x.getLsbD n = false := by simpa using set
      cases found : msrLoop x n with
      | none =>
        rw [found] at before
        intro j below
        rcases Nat.lt_succ_iff_lt_or_eq.mp below with less | rfl
        · exact before j less
        · exact clear
      | some i =>
        rw [found] at before
        refine ⟨by omega,before.2.1,fun j above below => ?_⟩
        rcases Nat.lt_succ_iff_lt_or_eq.mp below with less | rfl
        · exact before.2.2 j above less
        · exact clear

theorem selectHolds (h : Holds f s) (idle) :
    (∃ p t, selectNextThread idle s = .ok t ∧ (f.queue (.ready p)).head? = some t ∧ ∀ r, p < r → f.queue (.ready r) = []) ∨
      selectNextThread idle s = .ok idle ∧ ∀ p, f.queue (.ready p) = [] := by
  have clear : ∀ {p : Prio}, s.bitmap.getLsbD p = false → f.queue (.ready p) = [] := by
    intro p low
    by_contra some
    rw [(h.bits p).mpr some] at low
    cases low
  by_cases zero : s.bitmap = 0
  · refine Or.inr ⟨by simp [selectNextThread,rdqFindRunnableThread,findMsrBit,zero,bind,Except.bind,pure,Except.pure],fun p => clear ?_⟩
    simp [zero]
  have spec := msrLoopSpec s.bitmap (Nat.le_refl 32)
  cases found : msrLoop s.bitmap 32 with
  | none =>
    rw [found] at spec
    exact absurd (BitVec.eq_of_getLsbD_eq fun j below => by simpa using spec j below) zero
  | some i =>
    rw [found] at spec
    obtain ⟨_,set,above⟩ := spec
    have inside : i < rdqPriorityMax := by
      by_contra high
      rw [h.high i (by omega)] at set
      cases set
    have line := (h.bits ⟨i,inside⟩).mp set
    cases first : f.queue (.ready ⟨i,inside⟩) with
    | nil => exact absurd first line
    | cons t rest =>
      refine Or.inl ⟨⟨i,inside⟩,t,?_,by rw [first]; rfl,fun r higher => clear (above r higher (r.isLt.trans (by decide)))⟩
      have index : headAt (BitVec.ofNat 32 i) = .ok ⟨i,inside⟩ := by
        have same : (BitVec.ofNat 32 i).toNat = i := by
          rw [BitVec.toNat_ofNat]
          omega
        simp [headAt,same,inside]
      have filled : listIsEmpty s.links (.head (.ready ⟨i,inside⟩)) = false := by
        by_contra empty
        exact line ((isEmptyForest h.forest).mp (by simpa using empty))
      have top : listRefTop s.links (.head (.ready ⟨i,inside⟩)) = .node t := by
        rw [listRefTop,forestFirst h.forest,first]
        rfl
      have bit : findMsrBit s.bitmap = some i := (if_neg zero).trans found
      simp [selectNextThread,rdqFindRunnableThread,bit,index,filled,top,bind,Except.bind,pure,Except.pure]

end Selection

section Runs
variable [DecidableEq τ] {idle : τ} {ops : List (Op τ)}

theorem priorityLow (attrp) : (priorityOf attrp).toNat < rdqPriorityMax := by
  unfold priorityOf
  split
  · rename_i attr
    split
    · rename_i asked
      have := BitVec.toInt_eq_toNat_cond attr.prio
      simp only [rdqUserRrPriority] at asked
      omega
    · decide
  · decide

structure Known (idle : τ) (ops : List (Op τ)) : Prop where
  created : ∀ k t, t ∈ (fifo ops).queue k → t ∈ threads ops
  idle : idle ∉ threads ops

theorem createRuns (attrp memalign thr) (s : RunQueue τ) :
    step (.create attrp memalign thr) s =
      match (Op.create attrp memalign thr).born with
      | none => .ok s
      | some t => rdqAddThread t {s with prio := update s.prio t (priorityOf attrp), links := initListNode s.links (.node t)} := by
  simp only [step,thrCreateThread,Op.born]
  cases needsStack attrp && !memalign with
  | true => rfl
  | false =>
    cases thr with
    | none => rfl
    | some t =>
      simp only [Bool.false_eq_true,if_false]
      cases rdqAddThread t {s with prio := update s.prio t (priorityOf attrp), links := initListNode s.links (.node t)} <;> rfl

theorem createHolds {f t} (h : Holds f s) (fresh : ∀ k, t ∉ f.queue k) (attrp) :
    ∃ s', rdqAddThread t {s with prio := update s.prio t (priorityOf attrp), links := initListNode s.links (.node t)} = .ok s' ∧
      Holds (Fifo.enter {f with prio := update f.prio t (Fin.ofNat _ (priorityOf attrp).toNat)} t) s' := by
  have alone := (forestAlone h.forest).mpr fresh
  have prepared : Holds {f with prio := update f.prio t (Fin.ofNat _ (priorityOf attrp).toNat)}
      {s with prio := update s.prio t (priorityOf attrp), links := initListNode s.links (.node t)} := by
    refine ⟨by rw [isolateAlone alone]; exact h.forest,h.bits,h.high,fun u => ?_,fun p u member => ?_⟩
    · by_cases same : u = t
      · subst same
        simp only [update_self,Fin.val_ofNat]
        exact (Nat.mod_eq_of_lt (priorityLow attrp)).symm
      · simp only [update_of_ne same]
        exact h.prio u
    · have other : u ≠ t := fun e => fresh (.ready p) (e ▸ member)
      dsimp only
      rw [update_of_ne other]
      exact h.own p u member
  exact addHolds prepared fresh

theorem stepHolds (h : Holds (fifo ops) s) (known : Known idle ops) {op} (legal : Legal idle ops op) :
    ∃ s', step op s = .ok s' ∧ Holds (fifo (op :: ops)) s' := by
  cases op with
  | create attrp memalign thr =>
    cases born : (Op.create attrp memalign thr).born with
    | none =>
      have same : fifo (.create attrp memalign thr :: ops) = fifo ops := by simp only [fifo,Fifo.step,born]
      exact ⟨s,by rw [createRuns,born],by rw [same]; exact h⟩
    | some t =>
      have new := (legal t born).2
      have fresh : ∀ k, t ∉ (fifo ops).queue k := fun k member => new (known.created k t member)
      obtain ⟨s',ran,holds⟩ := createHolds h fresh attrp
      exact ⟨s',by rw [createRuns,born]; exact ran,by simpa only [fifo,Fifo.step,born,Op.asked] using holds⟩
  | add t => exact addHolds h legal.2
  | remove t => exact removeHolds h t
  | rotate => exact ⟨_,rfl,rotateHolds h⟩

theorem stepKnown (known : Known idle ops) {op} (legal : Legal idle ops op) : Known idle (op :: ops) := by
  have older : ∀ t, t ∈ threads ops → t ∈ threads (op :: ops) := by
    intro t member
    unfold threads at member ⊢
    rw [List.filterMap_cons]
    split
    · exact member
    · exact List.mem_cons_of_mem _ member
  cases op with
  | create attrp memalign thr =>
    cases born : (Op.create attrp memalign thr).born with
    | none =>
      have same : threads (.create attrp memalign thr :: ops) = threads ops := List.filterMap_cons_none born
      have same' : fifo (.create attrp memalign thr :: ops) = fifo ops := by simp only [fifo,Fifo.step,born]
      exact ⟨by rw [same,same']; exact known.created,by rw [same]; exact known.idle⟩
    | some t =>
      have grown : threads (.create attrp memalign thr :: ops) = t :: threads ops := List.filterMap_cons_some born
      refine ⟨fun p u member => ?_,?_⟩
      · simp only [fifo,Fifo.step,born] at member
        rw [grown,List.mem_cons]
        exact (enteredMem member).imp And.left (known.created p u)
      · rw [grown,List.mem_cons]
        exact fun found => found.elim (fun e => (legal t born).1 e.symm) known.idle
  | add t =>
    refine ⟨fun p u member => ?_,known.idle⟩
    rcases enteredMem member with ⟨rfl,_⟩ | member
    · exact older u legal.1
    · exact older u (known.created p u member)
  | remove t => exact ⟨fun p u member => known.created p u (List.mem_of_mem_erase member),known.idle⟩
  | rotate =>
    exact ⟨fun k u member => known.created k u (rotatedMem.mp member),known.idle⟩

theorem runsHold (run : Runs idle ops s) : Holds (fifo ops) s ∧ Known idle ops := by
  induction run with
  | start =>
    refine ⟨⟨forestStart,fun p => ?_,fun i _ => ?_,fun _ => rfl,fun _ _ member => absurd member List.not_mem_nil⟩,
      ⟨fun _ _ member => absurd member List.not_mem_nil,List.not_mem_nil⟩⟩
    · simp [rdqInitReadyQueue,fifo]
    · simp [rdqInitReadyQueue]
  | step before legal next ih =>
    obtain ⟨s',ran,holds⟩ := stepHolds ih.1 ih.2 legal
    rw [ran] at next
    cases next
    exact ⟨holds,stepKnown ih.2 legal⟩

theorem selectionIsFifo (run : Runs idle ops s) :
    (∀ op, Legal idle ops op → ∃ s', step op s = .ok s') ∧
    (∀ p : Prio, s.bitmap.getLsbD p = true ↔ listIsEmpty s.links (.head (.ready p)) = false) ∧
    (∀ i, rdqPriorityMax ≤ i → s.bitmap.getLsbD i = false) ∧
    (∀ p, Ring s.links (.head (.ready p)) (((fifo ops).queue (.ready p)).map .node)) ∧
    (∀ p t, t ∈ (fifo ops).queue (.ready p) → (s.prio t).toNat = p) ∧
    (∃ t, selectNextThread idle s = .ok t) ∧
    (∀ p t rest, (fifo ops).queue (.ready p) = t :: rest → (∀ r, p < r → (fifo ops).queue (.ready r) = []) →
      selectNextThread idle s = .ok t) ∧
    (selectNextThread idle s = .ok idle ↔ ∀ p, (fifo ops).queue (.ready p) = []) := by
  obtain ⟨h,known⟩ := runsHold run
  refine ⟨fun op legal => ?_,fun p => ?_,h.high,fun p => h.forest.ring (.ready p),fun p t member => ?_,?_,fun p t rest first above => ?_,?_⟩
  · obtain ⟨s',ran,_⟩ := stepHolds h known legal
    exact ⟨s',ran⟩
  · rw [h.bits,← Bool.not_eq_true,isEmptyForest h.forest]
  · rw [h.prio,h.own p t member]
  · rcases selectHolds h idle with ⟨p,t,ran,_⟩ | ⟨ran,_⟩
    · exact ⟨t,ran⟩
    · exact ⟨idle,ran⟩
  · rcases selectHolds h idle with ⟨r,u,ran,top,higher⟩ | ⟨_,empty⟩
    · have same : r = p := by
        rcases Nat.lt_trichotomy r p with less | same | more
        · rw [higher p less] at first
          cases first
        · exact Fin.ext same
        · rw [above r more] at top
          cases top
      subst same
      rw [first] at top
      cases top
      exact ran
    · rw [empty p] at first
      cases first
  · rcases selectHolds h idle with ⟨p,t,ran,top,_⟩ | ⟨ran,empty⟩
    · have inside := List.mem_of_mem_head? top
      refine iff_of_false (fun idles => ?_) fun empty => ?_
      · rw [ran] at idles
        cases idles
        exact known.idle (known.created (.ready p) _ inside)
      · rw [empty p] at inside
        cases inside
    · exact iff_of_true ran empty

end Runs

def twoThreads : List (Op Nat) := [.rotate,.create (some ⟨0,0,5⟩) true (some 2),.create none true (some 1)]

theorem higherIsSelected : ∃ s, Runs 0 twoThreads s ∧ selectNextThread 0 s = .ok 2 ∧ s.bitmap.getLsbD 5 = true := by
  have first : Legal 0 [] (.create none true (some 1)) := by
    rintro t ⟨⟩
    exact ⟨by decide,List.not_mem_nil⟩
  have second : Legal 0 [.create none true (some 1)] (.create (some ⟨0,0,5⟩) true (some 2)) := by
    rintro t ⟨⟩
    exact ⟨by decide,by decide⟩
  have run : Runs 0 twoThreads _ := .step (.step (.step .start first rfl) second rfl) trivial rfl
  obtain ⟨_,bits,_,_,_,_,selected,_⟩ := selectionIsFifo run
  exact ⟨_,run,selected 5 2 [] (by decide) (by decide),(bits 5).mpr (by decide)⟩

end TskSw.ReadyQueue
