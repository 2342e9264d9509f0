import TskSw.X64Machine

/-! Traps that interrupt each other, as deep as the counters count. A trap leaves its frame on the stack in use
and its handler runs there, or on the interrupt stack if the trap counters of the current thread
are zero; then the task goes through `thr_handle_task_exception_handler` on its own stack before
it goes on. The C code in between is anything that leaves alone what is suspended. -/
namespace TskSw.X64Traps
open ByteMemory WordMemory X64Machine
open TrapCounts (Kind count update countUpdate)

def aligned (c : Cpu) : Addr := c.reg .rsp &&& ~~~0xf

def frame (c : Cpu) : Addr := aligned c - 176

def frameArea (c : Cpu) : Set Addr := span (frame c - 8) 184

def intrArea (y : Symbols) : Set Addr := span (y.intrStackEnd - 16) 16

def frameWords (d : Delivery) (c : Cpu) : List Word :=
  [c.ss,c.reg .rsp,c.rflags,c.cs,c.rip,if pushesErrorCode d.vector then d.errorCode else 0,d.vector.setWidth 64] ++
    general.map c.reg

variable {y : Symbols} {d : Delivery} {P : Set Addr} {s u : Machine}

section Code
variable {m : Machine} {c : Cpu}

theorem stubPushes (v m) :
    Pushes ((if pushesErrorCode v then [] else [0]) ++ [v.setWidth 64]) m (exec (vectorStub v) m) := by
  have same : pushesErrorCode v = decide (v = 8 ∨ v ≥ 10 ∧ v ≤ 14 ∨ v = 17) := rfl
  rw [vectorStub,same]
  by_cases code : v = 8 ∨ v ≥ 10 ∧ v ≤ 14 ∨ v = 17
  · rw [if_neg (not_not.mpr code),decide_eq_true code]
    exact pushesAll _
  · rw [if_pos code,decide_eq_false code]
    exact (pushesAll [0]).more (pushesAll _)

theorem framePushes (d : Delivery) (m : Machine) :
    Pushes (frameWords d m.cpu) (m.set .rsp (aligned m.cpu))
      (exec (general.map .push) (exec [.cli,.cld] (exec (vectorStub d.vector) (deliver d m)))) := by
  let c := m.cpu
  have words : ([c.ss,c.reg .rsp,c.rflags,c.cs,c.rip] ++ if pushesErrorCode d.vector then [d.errorCode] else []) ++
      ((if pushesErrorCode d.vector then [] else [0]) ++ [d.vector.setWidth 64]) =
      [c.ss,c.reg .rsp,c.rflags,c.cs,c.rip,if pushesErrorCode d.vector then d.errorCode else 0,d.vector.setWidth 64] := by
    cases pushesErrorCode d.vector <;> rfl
  have delivered : Pushes ([c.ss,c.reg .rsp,c.rflags,c.cs,c.rip] ++ if pushesErrorCode d.vector then [d.errorCode] else [])
      (m.set .rsp (aligned c)) (deliver d m) := by
    unfold deliver
    exact (pushesAll _).same rfl rfl
  have early := (delivered.more (stubPushes d.vector (deliver d m))).same
    (k := exec [.cli,.cld] (exec (vectorStub d.vector) (deliver d m))) rfl rfl
  have regs : general.map (exec [.cli,.cld] (exec (vectorStub d.vector) (deliver d m))).cpu.reg = general.map c.reg :=
    List.map_congr_left fun r there => by
      have other : r ≠ .rsp := fun same => absurd (same ▸ there) (by decide)
      exact (early.regs r other).trans (setOther other _ _)
  rw [frameWords,← words,← regs]
  exact early.more (pushesRegs general (by decide) _)

theorem entered (y d m) :
    let s := exec (vectorStub d.vector ++ buildTrapContext ++ lookAtCount y) (deliver d m)
    let t := pushAll (frameWords d m.cpu) (aligned m.cpu,m.mem)
    (s.rsp,s.mem) = t ∧ s.cpu.reg .rdi = frame m.cpu ∧ (zero s ↔ trapCount y t.2 = 0) := by
  intro s t
  have stack := (framePushes d m).stack
  rw [setRsp] at stack
  have all : s = exec (lookAtCount y) (exec [.mov .rsp .rdi]
      (exec (general.map .push) (exec [.cli,.cld] (exec (vectorStub d.vector) (deliver d m))))) := by
    simp only [s,buildTrapContext,execAppend]
  generalize exec (general.map .push) (exec [.cli,.cld] (exec (vectorStub d.vector) (deliver d m))) = n at stack all
  obtain ⟨rsp,same,rdi,count⟩ := looked y (n.set .rdi n.rsp)
  have memory : (n.set .rdi n.rsp).mem = t.2 := congrArg Prod.snd stack
  have pointer : n.rsp = t.1 := congrArg Prod.fst stack
  have moved : s = exec (lookAtCount y) (n.set .rdi n.rsp) := all
  rw [moved]
  refine ⟨?_,?_,?_⟩
  · rw [rsp,same,memory,show (n.set .rdi n.rsp).rsp = n.rsp from setOther (by decide) _ _,pointer]
  · rw [rdi,setSelf,pointer]
    exact pushAllPointer ..
  · rw [count,memory]

theorem callPushes (target next) : Pushes [next] m (exec [.call target next] m) := (pushesAll [next]).same rfl rfl

theorem enterNested (busy : trapCount y (pushAll (frameWords d m.cpu) (aligned m.cpu,m.mem)).2 ≠ 0) :
    ((enter y d m).rsp,(enter y d m).mem) = pushAll (frameWords d m.cpu ++ [y.retFromTrap]) (aligned m.cpu,m.mem) := by
  obtain ⟨stack,-,looked⟩ := entered y d m
  unfold enter
  simp only [if_neg (mt looked.mp busy)]
  rw [pushAllAppend,← stack]
  exact (callPushes _ _).stack

theorem enterTask (idle : trapCount y (pushAll (frameWords d m.cpu) (aligned m.cpu,m.mem)).2 = 0) :
    ((enter y d m).rsp,(enter y d m).mem) =
      pushAll [frame m.cpu,y.retFromTrap] (y.intrStackEnd,(pushAll (frameWords d m.cpu) (aligned m.cpu,m.mem)).2) := by
  obtain ⟨stack,rdi,looked⟩ := entered y d m
  unfold enter
  simp only [if_pos (looked.mpr idle)]
  generalize exec (vectorStub d.vector ++ buildTrapContext ++ lookAtCount y) (deliver d m) = s at *
  rw [← stack]
  have changed : ((exec (changeStack y) s).rsp,(exec (changeStack y) s).mem) = pushAll [frame m.cpu] (y.intrStackEnd,s.mem) := by
    simp [exec,changeStack,step,Machine.pushes,Machine.set,Machine.rsp,pushAll,rdi]
  rw [show [frame m.cpu,y.retFromTrap] = [frame m.cpu] ++ [y.retFromTrap] from rfl,pushAllAppend,← changed]
  exact (callPushes _ _).stack

theorem iretqLoads {rip cs rflags rsp ss : Word} (holds : Holds m.mem m.rsp [rip,cs,rflags,rsp,ss]) :
    step .iretq m = ⟨⟨Function.update m.cpu.reg .rsp rsp,rip,rflags,cs,ss⟩,m.mem⟩ := by
  obtain ⟨first,second,third,fourth,fifth,-⟩ := holds
  simp only [step,first,second,third,fourth,fifth]

theorem restored (holds : Holds m.mem m.rsp (frameWords d c).reverse) : exec restoreContext m = ⟨c,m.mem⟩ := by
  have split : (frameWords d c).reverse = general.reverse.map c.reg ++
      [d.vector.setWidth 64,if pushesErrorCode d.vector then d.errorCode else 0,c.rip,c.cs,c.rflags,c.reg .rsp,c.ss] := rfl
  rw [split,holdsAppend,List.length_map] at holds
  have popped := (pops (by decide) holds.1).1
  have list : restoreContext = general.reverse.map .pop ++ [.add 16 .rsp,.iretq] := rfl
  rw [list,execAppend]
  generalize exec (general.reverse.map .pop) m = n at popped
  have upper : Holds (step (.add 16 .rsp) n).mem (step (.add 16 .rsp) n).rsp [c.rip,c.cs,c.rflags,c.reg .rsp,c.ss] := by
    have rsp : (step (.add 16 .rsp) n).rsp = m.rsp + BitVec.ofNat 64 (8*general.reverse.length) + 8 + 8 := by
      rw [BitVec.add_assoc _ 8 8,← popped.rsp]
      exact setRsp n _
    rw [rsp,show (step (.add 16 .rsp) n).mem = m.mem from popped.mem]
    exact holds.2.2.2
  have regs : Function.update (step (.add 16 .rsp) n).cpu.reg .rsp (c.reg .rsp) = c.reg := by
    funext r
    by_cases top : r = .rsp
    · rw [top,Function.update_self]
    · rw [Function.update_of_ne top]
      exact (setOther top _ _).trans (popped.loaded r (by cases r <;> first | decide | exact absurd rfl top))
  have done : exec [.add 16 .rsp,.iretq] n = step .iretq (step (.add 16 .rsp) n) := rfl
  rw [done,iretqLoads upper,regs]
  exact congrArg (Machine.mk c) popped.mem

theorem returnedLooked (y s) :
    let t := exec ([.cli] ++ lookAtCount y) (step .ret s)
    t.rsp = s.rsp + 8 ∧ t.mem = s.mem ∧ (zero t ↔ trapCount y s.mem = 0) := by
  intro t
  have all : t = exec (lookAtCount y) (exec [.cli] (step .ret s)) := execAppend ..
  obtain ⟨rsp,same,-,count⟩ := looked y (exec [.cli] (step .ret s))
  rw [all]
  exact ⟨rsp.trans (setRsp s _),same,count⟩

theorem leaveNested (busy : trapCount y m.mem ≠ 0) (holds : Holds m.mem m.rsp (y.retFromTrap :: (frameWords d c).reverse)) :
    leave y m = ⟨c,m.mem⟩ := by
  obtain ⟨rsp,same,looked⟩ := returnedLooked y m
  have there : (step .ret m).cpu.rip = y.retFromTrap := holds.1
  have rest := holds.2
  rw [← rsp] at rest
  unfold leave
  dsimp only
  rw [if_pos there,retFromTrap]
  simp only [if_neg (mt looked.mp busy)]
  generalize exec ([.cli] ++ lookAtCount y) (step .ret m) = s at *
  rw [← same] at rest ⊢
  exact restored rest

theorem leaveTask {f : Addr} (idle : trapCount y m.mem = 0) (holds : Holds m.mem m.rsp [y.retFromTrap,f]) :
    ((leave y m).rsp,(leave y m).mem) = pushAll [y.afterTaskException] (f,m.mem) := by
  obtain ⟨rsp,same,looked⟩ := returnedLooked y m
  have there : (step .ret m).cpu.rip = y.retFromTrap := holds.1
  have top := holds.2.1
  rw [← rsp] at top
  unfold leave
  dsimp only
  rw [if_pos there,retFromTrap]
  simp only [if_pos (looked.mpr idle)]
  generalize exec ([.cli] ++ lookAtCount y) (step .ret m) = s at *
  rw [← same] at top ⊢
  have rsp : (exec [.pop .rbx,.mov .rbx .rsp,.sti] s).rsp = f := by
    simp [exec,step,Machine.set,Machine.flags,Machine.rsp]
    exact top
  rw [← rsp]
  exact (callPushes (m := exec [.pop .rbx,.mov .rbx .rsp,.sti] s) _ _).stack

theorem restoreTask (holds : Holds m.mem m.rsp (y.afterTaskException :: (frameWords d c).reverse)) : restore y m = ⟨c,m.mem⟩ := by
  have there : (step .ret m).cpu.rip = y.afterTaskException := holds.1
  have rsp : (exec [.cli] (step .ret m)).rsp = m.rsp + 8 := setRsp m _
  have rest := holds.2
  rw [← rsp] at rest
  unfold restore
  dsimp only
  rw [if_pos there,execAppend]
  exact restored (m := exec [.cli] (step .ret m)) rest

end Code

section Counters
variable {w v : Word}

theorem lowCounts (w : Word) : w &&& 0xffff = (count .interrupt w ++ count .exception w).setWidth 64 := by
  refine BitVec.eq_of_getLsbD_eq fun i small => ?_
  have ones : (0xffff : Word) = (BitVec.allOnes 16).setWidth 64 := by decide
  rw [BitVec.getLsbD_and,ones,BitVec.getLsbD_setWidth,BitVec.getLsbD_setWidth,BitVec.getLsbD_allOnes,BitVec.getLsbD_append]
  rcases Nat.lt_or_ge i 8 with low | high
  · rw [if_pos low,count,Preempt.referBit low,show Kind.exception.shift + i = i from Nat.zero_add i]
    grind
  · rw [if_neg (by omega)]
    rcases Nat.lt_or_ge i 16 with mid | far
    · have index : Kind.interrupt.shift + (i-8) = i := by
        change 8 + (i-8) = i
        omega
      rw [count,Preempt.referBit (by omega),index]
      grind
    · rw [BitVec.getLsbD_of_ge (count .interrupt w) (i-8) (by omega)]
      grind

theorem lowSame (k) (trap : k ≠ .preempt) (same : v &&& 0xffff = w &&& 0xffff) : count k v = count k w := by
  rw [lowCounts,lowCounts] at same
  refine BitVec.eq_of_getLsbD_eq fun i small => ?_
  have exceptions := congrArg (fun v => v.getLsbD i) same
  have interrupts := congrArg (fun v => v.getLsbD (8+i)) same
  simp only [BitVec.getLsbD_setWidth,BitVec.getLsbD_append] at exceptions interrupts
  cases k <;> grind

theorem countZero (k : Kind) : count k 0 = 0 := by cases k <;> decide

theorem kindOther {k : Kind} (same : kind d = some k) : k ≠ .preempt := by
  obtain rfl := Option.some.inj same
  split <;> decide

theorem countedSeen (deep : ∀ k, kind d = some k → count k w ≠ 255) : update (kind d) 1 w &&& 0xffff ≠ 0 := by
  intro zero
  obtain ⟨k,same⟩ : ∃ k, kind d = some k := ⟨_,rfl⟩
  have none := lowSame (w := 0) k (kindOther same) zero
  rw [countUpdate,if_pos same,countZero] at none
  exact deep k same (by bv_omega)

theorem countedBack (same : v &&& 0xffff = update (kind d) 1 w &&& 0xffff) : update (kind d) (-1) v &&& 0xffff = w &&& 0xffff := by
  have counts : ∀ k ≠ .preempt, count k (update (kind d) (-1) v) = count k w := fun k trap => by
    rw [countUpdate,lowSame k trap same,countUpdate]
    split <;> bv_omega
  rw [lowCounts,lowCounts w,counts _ (by decide),counts _ (by decide)]

end Counters

def seen (y : Symbols) (m : Mem) : Set Addr := span y.current 8 ∪ span (tinfoCell y m) 8

structure Keeps (y : Symbols) (P : Set Addr) (m m' : Mem) : Prop where
  place : Set.EqOn m m' (P ∪ seen y m)
  counts : trapCount y m' = trapCount y m

abbrev Own (y : Symbols) (P : Set Addr) (m : Mem) : Prop := Disjoint (span (preemptCell y m) 8) (P ∪ seen y m)

abbrev Free (y : Symbols) (P : Set Addr) (m : Mem) (w : Set Addr) : Prop := Disjoint w (P ∪ seen y m ∪ span (preemptCell y m) 8)

-- What runs with the memory `P` kept, on the interrupt stack or not; with a trap, from the interrupted
-- instruction until the processor is back there.
inductive Runs (y : Symbols) : Bool → Option Delivery → Set Addr → Machine → Machine → Prop where
  | work {b : Bool} {P : Set Addr} {s t : Machine} (keeps : Keeps y P s.mem t.mem) : Runs y b none P s t
  | seq {b : Bool} {P : Set Addr} {s t u : Machine} (first : Runs y b none P s t) (second : Runs y b none P t u) : Runs y b none P s u
  | trap {b : Bool} {P : Set Addr} {s t : Machine} {d : Delivery} (trapped : Runs y b (some d) P s t) : Runs y b none P s t
  | nested {P : Set Addr} {s u : Machine} {d : Delivery} (own : Own y P s.mem) (room : Free y P s.mem (frameArea s.cpu))
      (deep : ∀ k, kind d = some k → count k (word s.mem (preemptCell y s.mem)) ≠ 255)
      (handler : Runs y true none (P ∪ frameArea s.cpu) (counted y d 1 (enter y d s)) u) (back : u.rsp = (enter y d s).rsp) :
      Runs y true (some d) P s (leave y (counted y d (-1) u))
  | task {P : Set Addr} {s u v : Machine} {d : Delivery} (own : Own y P s.mem) (room : Free y P s.mem (frameArea s.cpu ∪ intrArea y))
      (apart : Disjoint (frameArea s.cpu) (intrArea y))
      (handler : Runs y true none (P ∪ (frameArea s.cpu ∪ intrArea y)) (counted y d 1 (enter y d s)) u) (back : u.rsp = (enter y d s).rsp)
      (exceptions : Runs y false none (P ∪ frameArea s.cpu) (leave y (counted y d (-1) u)) v)
      (ended : v.rsp = (leave y (counted y d (-1) u)).rsp) : Runs y false (some d) P s (restore y v)

section Frames
variable {Q w : Set Addr} {m m' m'' : Mem}

theorem seenSame (same : Set.EqOn m m' (P ∪ seen y m)) : preemptCell y m' = preemptCell y m ∧ seen y m' = seen y m := by
  have way := same.mono Set.subset_union_right
  have current : word m' y.current = word m y.current := wordSame (way.mono Set.subset_union_left)
  have tinfo : tinfoCell y m' = tinfoCell y m := by rw [tinfoCell,current,tinfoCell]
  refine ⟨?_,by rw [seen,tinfo,seen]⟩
  rw [preemptCell,tinfo,wordSame (way.mono Set.subset_union_right),preemptCell]

theorem keepsRefl : Keeps y P m m := ⟨Set.eqOn_refl _ _,rfl⟩

theorem Keeps.trans (first : Keeps y P m m') (second : Keeps y P m' m'') : Keeps y P m m'' := by
  have place := second.place
  rw [(seenSame first.place).2] at place
  exact ⟨first.place.trans place,second.counts.trans first.counts⟩

theorem Keeps.less (keeps : Keeps y Q m m') (less : P ⊆ Q) : Keeps y P m m' :=
  ⟨keeps.place.mono (Set.union_subset_union_left _ less),keeps.counts⟩

theorem freeKeeps (free : Free y P m w) (kept : Set.EqOn m m' wᶜ) : Keeps y P m m' := by
  obtain ⟨place,counts⟩ := Set.disjoint_union_right.mp free
  have same := keptApart kept place
  refine ⟨same,?_⟩
  rw [trapCount,(seenSame same).1,wordKept kept counts,trapCount]

theorem freeLater (free : Free y P m w) (same : Set.EqOn m m' (P ∪ seen y m)) : Free y P m' w := by
  rwa [Free,(seenSame same).1,(seenSame same).2]

theorem ownLater (own : Own y P m) (same : Set.EqOn m m' (P ∪ seen y m)) : Own y P m' := by
  rwa [Own,(seenSame same).1,(seenSame same).2]

theorem ownMore (own : Own y P m) (free : Free y P m w) : Own y (P ∪ w) m := by
  rw [Own,Set.union_right_comm]
  exact own.union_right (Set.disjoint_union_right.mp free).2.symm

theorem countedSame (own : Own y P s.mem) (diff) : Set.EqOn s.mem (counted y d diff s).mem (P ∪ seen y s.mem) := keptApart putOutside own

theorem countedCount (own : Own y P s.mem) (diff : Word) :
    trapCount y (counted y d diff s).mem = update (kind d) diff (word s.mem (preemptCell y s.mem)) &&& 0xffff := by
  rw [trapCount,(seenSame (countedSame own diff)).1]
  exact congrArg (· &&& 0xffff) (wordPut ..)

theorem handled (own : Own y P s.mem) (handler : Keeps y P (counted y d 1 s).mem u.mem) : Keeps y P s.mem (counted y d (-1) u).mem := by
  have up := countedSame (d := d) own 1
  have place := handler.place
  rw [(seenSame up).2] at place
  have later := ownLater own (up.trans place)
  have down := countedSame (d := d) later (-1)
  rw [(seenSame (up.trans place)).2] at down
  refine ⟨(up.trans place).trans down,?_⟩
  rw [countedCount later]
  refine countedBack ?_
  rw [← countedCount own]
  exact handler.counts

theorem framePointer (d c m) : (pushAll (frameWords d c) (aligned c,m)).1 = frame c := pushAllPointer ..

theorem frameHolds (d : Delivery) (c : Cpu) (m : Mem) :
    Holds (pushAll (frameWords d c) (aligned c,m)).2 (frame c) (frameWords d c).reverse := by
  have holds := pushAllHolds (frameWords d c) (aligned c) m (Nat.le_of_ble_eq_true rfl)
  rwa [framePointer] at holds

theorem frameInside (d : Delivery) (c : Cpu) : span (frame c) (8*(frameWords d c).reverse.length) ⊆ frameArea c := by
  refine spanSub ?_
  rw [show 8*(frameWords d c).reverse.length = 176 from rfl]
  bv_omega

theorem frameKept (d : Delivery) (c : Cpu) (m : Mem) : Set.EqOn m (pushAll (frameWords d c) (aligned c,m)).2 (frameArea c)ᶜ := by
  have kept := pushAllKeeps (frameWords d c) (aligned c) m
  rw [framePointer,← List.length_reverse] at kept
  exact keptMore kept (frameInside d c)

theorem calledHolds {c : Cpu} {a : Word} {t : Addr × Mem} (low : t.1 = frame c) (holds : Holds t.2 (frame c) (frameWords d c).reverse)
    (stack : (s.rsp,s.mem) = pushAll [a] t) :
    Set.EqOn t.2 s.mem (span (frame c - 8) 8)ᶜ ∧ s.rsp = frame c - 8 ∧ Holds s.mem s.rsp (a :: (frameWords d c).reverse) := by
  obtain ⟨sp,m⟩ := t
  subst low
  have top := pushAllOn [a] (Nat.le_of_ble_eq_true rfl) holds
  have kept := pushAllKeeps [a] (frame c) m
  rw [← stack] at top kept
  have pointer : s.rsp = frame c - 8 := congrArg Prod.fst stack
  exact ⟨pointer ▸ kept,pointer,top⟩

theorem calledArea (c) : span (frame c - 8) 8 ⊆ frameArea c := spanSub (by simp)

end Frames

section Nested
variable (own : Own y P s.mem) (room : Free y P s.mem (frameArea s.cpu)) (busy : trapCount y s.mem ≠ 0)
include room busy

theorem nestedEnters :
    Keeps y P s.mem (enter y d s).mem ∧ (enter y d s).rsp = frame s.cpu - 8 ∧
      Holds (enter y d s).mem (enter y d s).rsp (y.retFromTrap :: (frameWords d s.cpu).reverse) := by
  have kept := frameKept d s.cpu s.mem
  have stack := enterNested (y := y) (d := d) (m := s) (by rwa [(freeKeeps room kept).counts])
  rw [pushAllAppend] at stack
  obtain ⟨called,pointer,holds⟩ := calledHolds (framePointer d s.cpu s.mem) (frameHolds d s.cpu s.mem) stack
  exact ⟨freeKeeps room (kept.trans (keptMore called (calledArea _))),pointer,holds⟩

include own

theorem nestedSeen (deep : ∀ k, kind d = some k → count k (word s.mem (preemptCell y s.mem)) ≠ 255) :
    trapCount y (counted y d 1 (enter y d s)).mem ≠ 0 := by
  obtain ⟨entry,-⟩ := nestedEnters (d := d) room busy
  rw [countedCount (ownLater own entry.place)]
  refine countedSeen fun k same => ?_
  rw [lowSame k (kindOther same) entry.counts]
  exact deep k same

theorem nestedBack (handler : Keeps y (P ∪ frameArea s.cpu) (counted y d 1 (enter y d s)).mem u.mem) (back : u.rsp = (enter y d s).rsp) :
    Keeps y P s.mem (leave y (counted y d (-1) u)).mem ∧ (leave y (counted y d (-1) u)).cpu = s.cpu := by
  obtain ⟨entry,pointer,holds⟩ := nestedEnters (d := d) room busy
  have done := handled (ownMore (ownLater own entry.place) (freeLater room entry.place)) handler
  have whole := entry.trans (done.less Set.subset_union_left)
  have still : Holds (counted y d (-1) u).mem (enter y d s).rsp (y.retFromTrap :: (frameWords d s.cpu).reverse) :=
    holdsSame (by rw [pointer]; exact done.place.mono (Set.subset_union_right.trans Set.subset_union_left)) holds
  have left : leave y (counted y d (-1) u) = ⟨s.cpu,(counted y d (-1) u).mem⟩ :=
    leaveNested (by rwa [whole.counts]) (by rwa [show (counted y d (-1) u).rsp = _ from back])
  rw [left]
  exact ⟨whole,rfl⟩

end Nested

section Task
variable (own : Own y P s.mem) (room : Free y P s.mem (frameArea s.cpu ∪ intrArea y)) (apart : Disjoint (frameArea s.cpu) (intrArea y))
  (idle : trapCount y s.mem = 0)
include room apart idle

theorem taskEnters :
    Keeps y P s.mem (enter y d s).mem ∧ (enter y d s).rsp = y.intrStackEnd - 16 ∧
      Holds (enter y d s).mem (enter y d s).rsp [y.retFromTrap,frame s.cpu] ∧
      Holds (enter y d s).mem (frame s.cpu) (frameWords d s.cpu).reverse := by
  have kept := frameKept d s.cpu s.mem
  have stack := enterTask (y := y) (d := d) (m := s) (by rwa [(freeKeeps (room.mono_left Set.subset_union_left) kept).counts])
  have pointer : (enter y d s).rsp = y.intrStackEnd - 16 := (congrArg Prod.fst stack).trans (pushAllPointer ..)
  have memory := congrArg Prod.snd stack
  have pushed := pushAllKeeps [frame s.cpu,y.retFromTrap] y.intrStackEnd (pushAll (frameWords d s.cpu) (aligned s.cpu,s.mem)).2
  have top := pushAllHolds [frame s.cpu,y.retFromTrap] y.intrStackEnd (pushAll (frameWords d s.cpu) (aligned s.cpu,s.mem)).2
    (Nat.le_of_ble_eq_true rfl)
  rw [← stack] at top pushed
  have inside : span (enter y d s).rsp 16 = intrArea y := by rw [pointer,intrArea]
  have pushed : Set.EqOn (pushAll (frameWords d s.cpu) (aligned s.cpu,s.mem)).2 (enter y d s).mem (intrArea y)ᶜ := inside ▸ pushed
  refine ⟨freeKeeps room ((keptMore kept Set.subset_union_left).trans (keptMore pushed Set.subset_union_right)),pointer,top,?_⟩
  exact holdsSame (keptApart pushed (apart.symm.mono_right (frameInside d s.cpu))) (frameHolds d s.cpu s.mem)

include own

theorem taskSeen : trapCount y (counted y d 1 (enter y d s)).mem ≠ 0 := by
  obtain ⟨entry,-⟩ := taskEnters (d := d) room apart idle
  rw [countedCount (ownLater own entry.place)]
  refine countedSeen fun k same => ?_
  rw [lowSame (w := 0) k (kindOther same) (entry.counts.trans idle),countZero]
  decide

theorem taskLeaves
    (handler : Keeps y (P ∪ (frameArea s.cpu ∪ intrArea y)) (counted y d 1 (enter y d s)).mem u.mem) (back : u.rsp = (enter y d s).rsp) :
    Keeps y P s.mem (leave y (counted y d (-1) u)).mem ∧ (leave y (counted y d (-1) u)).rsp = frame s.cpu - 8 ∧
      Holds (leave y (counted y d (-1) u)).mem (leave y (counted y d (-1) u)).rsp (y.afterTaskException :: (frameWords d s.cpu).reverse) := by
  obtain ⟨entry,pointer,top,frames⟩ := taskEnters (d := d) room apart idle
  have done := handled (ownMore (ownLater own entry.place) (freeLater room entry.place)) handler
  have whole := entry.trans (done.less Set.subset_union_left)
  have areas := done.place.mono (Set.subset_union_right.trans Set.subset_union_left)
  have top' : Holds (counted y d (-1) u).mem (enter y d s).rsp [y.retFromTrap,frame s.cpu] :=
    holdsSame (by rw [pointer]; exact areas.mono Set.subset_union_right) top
  have frames' := holdsSame (areas.mono (Set.subset_union_of_subset_left (frameInside d s.cpu) _)) frames
  rw [← show (counted y d (-1) u).rsp = (enter y d s).rsp from back] at top'
  have stack := leaveTask (whole.counts.trans idle) top'
  generalize leave y (counted y d (-1) u) = q at stack ⊢
  obtain ⟨called,low,holds⟩ := calledHolds (t := (frame s.cpu,_)) rfl frames' stack
  have free := (freeLater room whole.place).mono_left ((calledArea _).trans Set.subset_union_left)
  exact ⟨whole.trans (freeKeeps free called),low,holds⟩

end Task

section Transparency
variable {t : Machine} {b : Bool}

theorem runsKeep {k : Option Delivery} (run : Runs y b k P s t) (level : trapCount y s.mem = 0 ↔ b = false) :
    Keeps y P s.mem t.mem ∧ (k ≠ none → t.cpu = s.cpu) := by
  induction run with
  | work keeps => exact ⟨keeps,absurd rfl⟩
  | seq _ _ ih ih' =>
    have first := (ih level).1
    exact ⟨first.trans (ih' (by rwa [first.counts])).1,absurd rfl⟩
  | trap _ ih => exact ⟨(ih level).1,absurd rfl⟩
  | nested own room deep _ back ih =>
    have busy := mt level.mp nofun
    obtain ⟨whole,cpu⟩ := nestedBack own room busy (ih (iff_of_false (nestedSeen own room busy deep) nofun)).1 back
    exact ⟨whole,fun _ => cpu⟩
  | task own room apart _ back _ ended ih ih' =>
    have idle := level.mpr rfl
    obtain ⟨whole,pointer,holds⟩ := taskLeaves own room apart idle (ih (iff_of_false (taskSeen own room apart idle) nofun)).1 back
    have later := (ih' (iff_of_true (whole.counts.trans idle) rfl)).1
    have still := holdsSame (by rw [pointer]; exact later.place.mono (Set.subset_union_right.trans Set.subset_union_left)) holds
    rw [restoreTask (by rwa [ended])]
    exact ⟨whole.trans (later.less Set.subset_union_left),fun _ => rfl⟩

theorem x64TrapsTransparent (run : Runs y b (some d) P s t) (level : trapCount y s.mem = 0 ↔ b = false) :
    t.cpu = s.cpu ∧ Set.EqOn s.mem t.mem P ∧ trapCount y t.mem = trapCount y s.mem := by
  obtain ⟨keeps,cpu⟩ := runsKeep run level
  exact ⟨cpu nofun,keeps.place.mono Set.subset_union_left,keeps.counts⟩

end Transparency

theorem frameAreaSame {c c' : Cpu} (same : c.reg .rsp = c'.reg .rsp) : frameArea c = frameArea c' := by
  rw [frameArea,frame,aligned,same,frameArea,frame,aligned]

theorem countedRsp {y d s} (diff) : (counted y d diff s).rsp = s.rsp := rfl

theorem nestedTrap {y : Symbols} {P : Set Addr} {s : Machine} (d e : Delivery) (x : Addr) (value : Word) (c : Cpu) (own : Own y P s.mem)
    (room : Free y P s.mem (frameArea s.cpu ∪ intrArea y)) (apart : Disjoint (frameArea s.cpu) (intrArea y)) (idle : trapCount y s.mem = 0)
    (top : c.reg .rsp = y.intrStackEnd - 16)
    (below : Free y (P ∪ (frameArea s.cpu ∪ intrArea y)) s.mem (frameArea c ∪ span x 8)) :
    ∃ n b : Machine, (∃ m, n.mem = put m x value) ∧ trapCount y n.mem ≠ 0 ∧
      Runs y true (some e) (P ∪ (frameArea s.cpu ∪ intrArea y)) n b ∧ Runs y false (some d) P s (restore y (leave y (counted y d (-1) b))) := by
  obtain ⟨entry,pointer,-,-⟩ := taskEnters (d := d) room apart idle
  have mine := ownMore (ownLater own entry.place) (freeLater room entry.place)
  have up := countedSame (d := d) mine 1
  have free : Free y (P ∪ (frameArea s.cpu ∪ intrArea y)) (counted y d 1 (enter y d s)).mem (frameArea c ∪ span x 8) := by
    rwa [Free,(seenSame up).1,(seenSame up).2,(seenSame entry.place).1,(seenSame entry.place).2]
  have busy := taskSeen (d := d) own room apart idle
  have counts := countedCount (d := d) mine 1
  generalize before : counted y d 1 (enter y d s) = n at up free busy counts
  have work : Keeps y (P ∪ (frameArea s.cpu ∪ intrArea y)) n.mem (put n.mem x value) :=
    freeKeeps (free.mono_left Set.subset_union_right) putOutside
  have same : frameArea n.cpu = frameArea c := frameAreaSame (by rw [← before,top,← pointer,← countedRsp 1]; rfl)
  have deep : ∀ k, kind e = some k → count k (word (put n.mem x value) (preemptCell y (put n.mem x value))) ≠ 255 := by
    intro k trap
    rw [lowSame k (kindOther trap) (work.counts.trans counts),countUpdate,lowSame (w := 0) k (kindOther trap) (entry.counts.trans idle),countZero]
    split <;> decide
  obtain ⟨b,inner⟩ : ∃ b, Runs y true (some e) (P ∪ (frameArea s.cpu ∪ intrArea y)) ⟨n.cpu,put n.mem x value⟩ b :=
    ⟨_,.nested (ownLater (ownLater mine up) work.place) (freeLater (same ▸ free.mono_left Set.subset_union_left) work.place) deep
      (.work keepsRefl) rfl⟩
  have still : trapCount y (put n.mem x value) ≠ 0 := by rwa [work.counts]
  obtain ⟨-,back⟩ := runsKeep inner (iff_of_false still (by decide))
  have handler : Runs y true none (P ∪ (frameArea s.cpu ∪ intrArea y)) n b := .seq (.work (t := ⟨n.cpu,put n.mem x value⟩) work) (.trap inner)
  have top : n.rsp = (enter y d s).rsp := by rw [← before,countedRsp]
  rw [← before] at handler
  refine ⟨⟨n.cpu,put n.mem x value⟩,b,⟨_,rfl⟩,still,inner,.task own room apart handler ?_ (.work keepsRefl) rfl⟩
  rw [Machine.rsp,back (Option.some_ne_none _)]
  exact top

theorem sampleLabels : (0x106 : Word) ≠ 0x107 := by decide

def sampleSymbols : Symbols := ⟨0x1000,0x9000,0x101,0x102,0x103,0x105,0x106,0x107,0x108,0x109,sampleLabels⟩

def sampleState : Machine := ⟨⟨fun _ => 0x20f00,0x5000,0x202,kernCode64,0x28⟩,fun _ => 0⟩

theorem spanFree {P : Set Addr} {a : Addr} {n : Nat} (place : Disjoint (span a n) P) (high : 0x1008 ≤ a.toNat) (fits : a.toNat + n ≤ 2^64) :
    Free sampleSymbols P sampleState.mem (span a n) := by
  have cell : ∀ b : Addr, b.toNat ≤ 0x1000 → Disjoint (span a n) (span b 8) := fun b low => spanApart (by bv_omega) (by bv_omega)
  exact .union_right (.union_right place (.union_right (cell 0x1000 (by decide)) (cell 0x20 (by decide)))) (cell 0 (by decide))

theorem x64TimerTransparent : ∃ n b t, (∃ m, n.mem = put m 0x3000 7) ∧
    Runs sampleSymbols true (some ⟨14,2⟩) (span 0x20f00 256 ∪ (frameArea sampleState.cpu ∪ intrArea sampleSymbols)) n b ∧ b.cpu = n.cpu ∧
    Runs sampleSymbols false (some ⟨32,0⟩) (span 0x20f00 256) sampleState t ∧ t.cpu = sampleState.cpu := by
  let c : Cpu := ⟨fun _ => 0x8ff0,0,0,0,0⟩
  have frames : Free sampleSymbols (span 0x20f00 256) sampleState.mem (frameArea sampleState.cpu) :=
    spanFree (spanApart (by decide) (by decide)) (by decide) (by decide)
  have intr : Free sampleSymbols (span 0x20f00 256) sampleState.mem (intrArea sampleSymbols) :=
    spanFree (spanApart (by decide) (by decide)) (by decide) (by decide)
  have inner : Free sampleSymbols (span 0x20f00 256 ∪ (frameArea sampleState.cpu ∪ intrArea sampleSymbols)) sampleState.mem (frameArea c) :=
    spanFree (.union_right (spanApart (by decide) (by decide))
      (.union_right (spanApart (by decide) (by decide)) (spanApart (by decide) (by decide)))) (by decide) (by decide)
  have cell : Free sampleSymbols (span 0x20f00 256 ∪ (frameArea sampleState.cpu ∪ intrArea sampleSymbols)) sampleState.mem (span 0x3000 8) :=
    spanFree (.union_right (spanApart (by decide) (by decide))
      (.union_right (spanApart (by decide) (by decide)) (spanApart (by decide) (by decide)))) (by decide) (by decide)
  have own : Own sampleSymbols (span 0x20f00 256) sampleState.mem :=
    .union_right (spanApart (by decide) (by decide)) (.union_right (spanApart (by decide) (by decide)) (spanApart (by decide) (by decide)))
  obtain ⟨n,b,stored,busy,nested,run⟩ := nestedTrap ⟨32,0⟩ ⟨14,2⟩ 0x3000 7 c own (frames.union_left intr)
    (spanApart (by decide) (by decide)) (by decide) (by decide) (inner.union_left cell)
  exact ⟨n,b,_,stored,nested,(x64TrapsTransparent nested (iff_of_false busy nofun)).1,run,
    (x64TrapsTransparent run (iff_of_true (by decide) rfl)).1⟩

end TskSw.X64Traps
