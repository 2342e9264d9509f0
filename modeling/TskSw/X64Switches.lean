import TskSw.X64Traps

/-! Threads that switch to one another in any order. A thread that does not run is what
`hal_do_context_switch` or `hal_setup_thread_function` left on its stack, with the stack pointer
in its attributes; traps and everything else that runs leave that memory alone. -/
namespace TskSw.X64Switches
open ByteMemory WordMemory X64Machine X64Traps
open Function (update update_of_ne update_self)

inductive Saved where
  | yielded (c : Cpu)
  | fresh (tinfo : Addr) (fn arg : Word)

def switchWords (y : Symbols) (c : Cpu) : List Word := [c.rflags &&& 0xfcffff] ++ calleeSaved.map c.reg ++ [y.switched]

def Saved.words (y : Symbols) : Saved → List Word
  | .yielded c => switchWords y c
  | .fresh _ fn arg => [arg,fn,y.thrExitThread,y.startThread]

def Saved.base : Saved → Addr
  | .yielded c => c.reg .rsp
  | .fresh tinfo _ _ => tinfo

def Saved.sp (y : Symbols) (p : Saved) : Addr := p.base - BitVec.ofNat 64 (8*(p.words y).length)

def Saved.area (y : Symbols) (p : Saved) : Set Addr := span (p.sp y) (8*(p.words y).length)

def Saved.TakenUp (y : Symbols) (n : Machine) : Saved → Prop
  | .yielded c => (∀ r ∈ Reg.rsp :: calleeSaved, n.cpu.reg r = c.reg r) ∧ n.cpu.rflags &&& popMask = c.rflags &&& popMask ∧
      n.cpu.rip = y.switched
  | .fresh tinfo fn arg => n.cpu.rip = y.thrThreadStart ∧ n.cpu.reg .rdi = fn ∧ n.cpu.reg .rsi = arg ∧ n.rsp = tinfo - 24 ∧
      word n.mem n.rsp = y.thrExitThread

structure State (τ : Type) where
  machine : Machine
  current : τ
  parked : τ → Option Saved

section Runs
variable {τ : Type} [DecidableEq τ] (y : Symbols) (attr : τ → Addr)

def owned (t : τ) (p : Saved) : Set Addr := span (attr t) 8 ∪ p.area y

structure Room (s : State τ) (t : τ) (p : Saved) : Prop where
  apart : Disjoint (span (attr t) 8) (p.area y)
  others : ∀ u q, s.parked u = some q → Disjoint (owned y attr t p) (owned y attr u q)

def created (attr tinfo : Addr) (fn arg : Word) (m : Mem) : Mem :=
  put (halSetupThreadFunction y tinfo fn arg m).2 attr (halSetupThreadFunction y tinfo fn arg m).1

inductive Step : State τ → State τ → Prop where
  | work {s n} (kept : ∀ t p, s.parked t = some p → Set.EqOn s.machine.mem n.mem (owned y attr t p)) :
      Step s {s with machine := n}
  | trap {s n P d} (trapped : X64Traps.Runs y false (some d) P s.machine n)
      (level : trapCount y s.machine.mem = 0) (kept : ∀ t p, s.parked t = some p → owned y attr t p ⊆ P) : Step s {s with machine := n}
  | create {s t tinfo fn arg} (other : t ≠ s.current) (new : s.parked t = none)
      (room : Room y attr s t (.fresh tinfo fn arg)) :
      Step s {s with
        machine := ⟨s.machine.cpu,created y (attr t) tinfo fn arg s.machine.mem⟩
        parked := update s.parked t (some (.fresh tinfo fn arg))}
  | destroy {s t} : Step s {s with parked := update s.parked t none}
  | switch {s next p} (ready : s.parked next = some p) (room : Room y attr s s.current (.yielded s.machine.cpu)) :
      Step s {
        machine := halDoContextSwitch y (attr s.current) (attr next) s.machine
        current := next
        parked := update (update s.parked s.current (some (.yielded s.machine.cpu))) next none}

inductive Reached : State τ → Prop where
  | boot {s} (alone : ∀ t, s.parked t = none) : Reached s
  | step {s s'} (before : Reached s) (next : Step y attr s s') : Reached s'

structure Stands (m : Mem) (t : τ) (p : Saved) : Prop where
  pointer : word m (attr t) = p.sp y
  words : Holds m (p.sp y) (p.words y).reverse

structure Inv (s : State τ) : Prop where
  current : s.parked s.current = none
  parked : ∀ t p, s.parked t = some p → Stands y attr s.machine.mem t p

end Runs

section Code
variable {y : Symbols} {m : Machine} {prev next : Addr} {c : Cpu}

def leftBehind (y : Symbols) (prev : Addr) (m : Machine) : Mem :=
  put (pushAll (switchWords y m.cpu) (m.rsp,m.mem)).2 prev (pushAll (switchWords y m.cpu) (m.rsp,m.mem)).1

theorem switchPushes (prev next m) :
    let s := exec (calleeSaved.map .push) (step .pushfq (exec [.movImm prev .rcx,.movImm next .rdx] m))
    (s.rsp,s.mem) = pushAll ([m.cpu.rflags &&& 0xfcffff] ++ calleeSaved.map m.cpu.reg) (m.rsp,m.mem) ∧
      s.cpu.reg .rcx = prev ∧ s.cpu.reg .rdx = next := by
  let a := exec [.movImm prev .rcx,.movImm next .rdx] m
  have flags : Pushes [m.cpu.rflags &&& 0xfcffff] a (step .pushfq a) := pushesAll _
  have regs : calleeSaved.map (step .pushfq a).cpu.reg = calleeSaved.map m.cpu.reg := List.map_congr_left fun r there => by
    cases r <;> first | rfl | exact absurd there (by decide)
  have both := flags.more (pushesRegs calleeSaved (by decide) (step .pushfq a))
  rw [regs] at both
  exact ⟨both.stack,both.regs .rcx (by decide),both.regs .rdx (by decide)⟩

theorem stacksExchanged (w : Word) (rcx : m.cpu.reg .rcx = prev) (rdx : m.cpu.reg .rdx = next) :
    let s := exec [.movImm w .r11,.push .r11,.store .rsp .rcx,.load 0 .rdx .rsp,.ret] m
    let t := pushAll [w] (m.rsp,m.mem)
    let mem := put t.2 prev t.1
    s.mem = mem ∧ s.rsp = word mem next + 8 ∧ s.cpu.rip = word mem (word mem next) := by
  simp [exec,step,Machine.set,Machine.pushes,Machine.goTo,Machine.rsp,rcx,rdx,pushAll]

theorem switchedOut (y prev next m) :
    let s := exec ([.movImm prev .rcx,.movImm next .rdx] ++ switchOut y) m
    s.mem = leftBehind y prev m ∧ s.rsp = word (leftBehind y prev m) next + 8 ∧
      s.cpu.rip = word (leftBehind y prev m) (word (leftBehind y prev m) next) := by
  obtain ⟨stack,rcx,rdx⟩ := switchPushes prev next m
  have exchanged := stacksExchanged y.switched rcx rdx
  rw [stack,← pushAllAppend] at exchanged
  simp only [switchOut,execAppend]
  exact exchanged

theorem switchMemory (y prev next m) : (halDoContextSwitch y prev next m).mem = leftBehind y prev m := by
  obtain ⟨same,-,-⟩ := switchedOut y prev next m
  unfold halDoContextSwitch
  generalize exec ([.movImm prev .rcx,.movImm next .rdx] ++ switchOut y) m = s at same
  rw [← same]
  dsimp only
  split
  · rfl
  · split <;> rfl

theorem popfqMasks (w f : Word) : ((w &&& 0xfcffff) &&& popMask ||| f &&& ~~~(popMask ||| resumeFlag)) &&& popMask = w &&& popMask := by
  refine BitVec.eq_of_getLsbD_eq fun i small => ?_
  have inner : (popMask.getLsbD i → (0xfcffff : Word).getLsbD i) := by
    revert i
    decide
  simp only [BitVec.getLsbD_and,BitVec.getLsbD_or,BitVec.getLsbD_not]
  grind

theorem switchedIn (holds : Holds m.mem m.rsp (calleeSaved.reverse.map c.reg ++ [c.rflags &&& 0xfcffff])) :
    let s := exec switchIn m
    s.rsp = m.rsp + 56 ∧ (∀ r ∈ calleeSaved, s.cpu.reg r = c.reg r) ∧ s.cpu.rflags &&& popMask = c.rflags &&& popMask ∧
      s.cpu.rip = m.cpu.rip := by
  rw [holdsAppend,List.length_map] at holds
  have popped := (pops (by decide) holds.1).1
  simp only [switchIn,execAppend]
  generalize exec (calleeSaved.reverse.map .pop) m = n at popped
  have flags : word n.mem n.rsp = c.rflags &&& 0xfcffff := by
    rw [popped.mem,popped.rsp]
    exact holds.2.1
  refine ⟨?_,?_,?_,popped.rip⟩
  · rw [show (56 : Word) = BitVec.ofNat 64 (8*calleeSaved.reverse.length) + 8 from rfl,← BitVec.add_assoc,← popped.rsp]
    exact setRsp n _
  · intro r there
    have other : r ≠ .rsp := fun same => absurd (same ▸ there) (by decide)
    exact (setOther other _ _).trans (popped.loaded r (List.mem_reverse.mpr there))
  · have value : (exec [.popfq] n).cpu.rflags = word n.mem n.rsp &&& popMask ||| n.cpu.rflags &&& ~~~(popMask ||| resumeFlag) := rfl
    rw [value,flags,popfqMasks]

theorem threadStarted {fn arg} (holds : Holds m.mem m.rsp [y.thrExitThread,fn,arg]) :
    let s := exec (startThread y) m
    s.cpu.rip = y.thrThreadStart ∧ s.cpu.reg .rdi = fn ∧ s.cpu.reg .rsi = arg ∧ s.rsp = m.rsp ∧ word s.mem s.rsp = y.thrExitThread := by
  obtain ⟨first,second,third,-⟩ := holds
  rw [BitVec.add_assoc] at third
  have pointer : (exec (startThread y) m).rsp = m.rsp := by simp [exec,startThread,step,Machine.set,Machine.goTo,Machine.rsp]
  refine ⟨?_,?_,?_,pointer,?_⟩
  · simp [exec,startThread,step,Machine.set,Machine.goTo]
  · rw [← second]
    simp [exec,startThread,step,Machine.set,Machine.goTo,Machine.rsp]
  · rw [← third]
    simp [exec,startThread,step,Machine.set,Machine.goTo,Machine.rsp]
  · rw [pointer]
    exact first

theorem takesUp {p : Saved} (pointer : word (leftBehind y prev m) next = p.sp y)
    (words : Holds (leftBehind y prev m) (p.sp y) (p.words y).reverse) : p.TakenUp y (halDoContextSwitch y prev next m) := by
  obtain ⟨same,rsp,rip⟩ := switchedOut y prev next m
  rw [pointer] at rsp rip
  unfold halDoContextSwitch
  generalize exec ([.movImm prev .rcx,.movImm next .rdx] ++ switchOut y) m = s at *
  rw [← same] at words rip
  dsimp only
  cases p with
  | yielded c =>
    have here : s.cpu.rip = y.switched := rip.trans words.1
    have rest : Holds s.mem s.rsp (calleeSaved.reverse.map c.reg ++ [c.rflags &&& 0xfcffff]) := rsp ▸ words.2
    obtain ⟨pointer,regs,flags,stays⟩ := switchedIn rest
    rw [if_pos here]
    refine ⟨fun r there => ?_,flags,stays.trans here⟩
    rcases List.mem_cons.mp there with rfl | there
    · refine pointer.trans ?_
      rw [rsp,Saved.sp,show 8*((Saved.yielded c).words y).length = 64 from rfl,Saved.base]
      bv_omega
    · exact regs r there
  | fresh tinfo fn arg =>
    have here : s.cpu.rip = y.startThread := rip.trans words.1
    have rest : Holds s.mem s.rsp [y.thrExitThread,fn,arg] := rsp ▸ words.2
    obtain ⟨start,rdi,rsi,pointer,exit⟩ := threadStarted rest
    rw [if_neg fun there => y.labels (there.symm.trans here),if_pos here]
    refine ⟨start,rdi,rsi,?_,exit⟩
    rw [pointer,rsp,Saved.sp,show 8*((Saved.fresh tinfo fn arg).words y).length = 32 from rfl,Saved.base]
    bv_omega

end Code

section Invariant
variable {τ : Type} {y : Symbols} {attr : τ → Addr} {s s' : State τ} {t : τ} {p : Saved} {m m' : Mem}

def parkedMem (y : Symbols) (attr : τ → Addr) (t : τ) (p : Saved) (m : Mem) : Mem :=
  put (pushAll (p.words y) (p.base,m)).2 (attr t) (pushAll (p.words y) (p.base,m)).1

theorem parks (apart : Disjoint (span (attr t) 8) (p.area y)) :
    Set.EqOn m (parkedMem y attr t p m) (owned y attr t p)ᶜ ∧ Stands y attr (parkedMem y attr t p m) t p := by
  have pointer : (pushAll (p.words y) (p.base,m)).1 = p.sp y := pushAllPointer ..
  have kept := pushAllKeeps (p.words y) p.base m
  have holds := pushAllHolds (p.words y) p.base m (by cases p <;> exact Nat.le_of_ble_eq_true rfl)
  rw [parkedMem]
  rw [pointer] at kept holds ⊢
  refine ⟨(keptMore kept Set.subset_union_right).trans (keptMore putOutside Set.subset_union_left),wordPut ..,?_⟩
  refine holdsSame (keptApart putOutside ?_) holds
  rw [List.length_reverse]
  exact apart

theorem Stands.later (stands : Stands y attr m t p) (same : Set.EqOn m m' (owned y attr t p)) : Stands y attr m' t p := by
  refine ⟨(wordSame (same.mono Set.subset_union_left)).trans stands.pointer,holdsSame (same.mono ?_) stands.words⟩
  rw [List.length_reverse]
  exact Set.subset_union_right

theorem othersStand (inv : Inv y attr s) (room : Room y attr s t p) {u q} (parked : s.parked u = some q) :
    Stands y attr (parkedMem y attr t p s.machine.mem) u q :=
  (inv.parked u q parked).later (keptApart (parks room.apart).1 (room.others u q parked))

variable [DecidableEq τ]

theorem parkedMore (inv : Inv y attr s) (room : Room y attr s t p) {u q}
    (parked : update s.parked t (some p) u = some q) : Stands y attr (parkedMem y attr t p s.machine.mem) u q := by
  by_cases same : u = t
  · subst same
    rw [update_self] at parked
    cases parked
    exact (parks room.apart).2
  · rw [update_of_ne same] at parked
    exact othersStand inv room parked

theorem parkedLess {f u} (parked : update f t none u = some p) : f u = some p := by
  by_cases same : u = t
  · rw [same,update_self] at parked
    cases parked
  · rwa [update_of_ne same] at parked

theorem stepInv (inv : Inv y attr s) (next : Step y attr s s') : Inv y attr s' := by
  cases next with
  | work kept => exact ⟨inv.current,fun t p parked => (inv.parked t p parked).later (kept t p parked)⟩
  | trap trapped level kept =>
    have same := (runsKeep trapped (iff_of_true level rfl)).1.place
    exact ⟨inv.current,fun t p parked => (inv.parked t p parked).later (same.mono ((kept t p parked).trans Set.subset_union_left))⟩
  | create other new room =>
    exact ⟨(update_of_ne other.symm _ _).trans inv.current,fun u q parked => parkedMore inv room parked⟩
  | destroy =>
    refine ⟨?_,fun u q parked => inv.parked u q (parkedLess parked)⟩
    by_contra parked
    obtain ⟨q,parked⟩ := Option.ne_none_iff_exists'.mp parked
    exact absurd inv.current (by rw [parkedLess parked]; nofun)
  | switch ready room =>
    refine ⟨update_self ..,fun u q parked => ?_⟩
    have stands := parkedMore inv room (parkedLess parked)
    dsimp only
    rw [switchMemory]
    exact stands

theorem reachedInv (run : Reached y attr s) : Inv y attr s := by
  induction run with
  | boot alone => exact ⟨alone _,fun t p parked => absurd parked (by rw [alone t]; nofun)⟩
  | step _ next ih => exact stepInv ih next

theorem x64ThreadsGoOn (run : Reached y attr s) (next : Step y attr s s') (switch : s'.current ≠ s.current)
    (parked : s.parked s'.current = some p) : p.TakenUp y s'.machine := by
  cases next with
  | work | trap | create | destroy => exact absurd rfl switch
  | switch ready room =>
    obtain ⟨pointer,words⟩ := othersStand (reachedInv run) room parked
    exact takesUp pointer words

end Invariant

def sampleAttr (t : Bool) : Addr := if t then 0x2000 else 0x3000

def sampleBoot : State Bool := ⟨sampleState,false,fun _ => none⟩

def sampleNew : Saved := .fresh 0x8000 0x6000 7

def sampleBoth : State Bool where
  machine := ⟨sampleState.cpu,created sampleSymbols (sampleAttr true) 0x8000 0x6000 7 sampleState.mem⟩
  current := false
  parked := update sampleBoot.parked true (some sampleNew)

def sampleSwitched : State Bool where
  machine := halDoContextSwitch sampleSymbols (sampleAttr false) (sampleAttr true) sampleBoth.machine
  current := true
  parked := update (update sampleBoth.parked false (some (.yielded sampleState.cpu))) true none

theorem yieldedRoom {s : State Bool} {t : Bool} {a : Addr} {q : Saved} (own : s.parked t = none) (other : s.parked (!t) = some q)
    (pointer : s.machine.rsp = a) (self : Disjoint (span (sampleAttr t) 8) (span (a - 64) 64))
    (cells : Disjoint (span (sampleAttr t) 8) (owned sampleSymbols sampleAttr (!t) q))
    (frames : Disjoint (span (a - 64) 64) (owned sampleSymbols sampleAttr (!t) q)) :
    Room sampleSymbols sampleAttr s t (.yielded s.machine.cpu) := by
  subst pointer
  refine ⟨self,fun u p parked => ?_⟩
  rcases Bool.eq_or_eq_not u t with rfl | rfl
  · cases own.symm.trans parked
  · cases other.symm.trans parked
    exact .union_left cells frames

theorem x64SecondStarts : ∃ s s' s'' : State Bool, Reached sampleSymbols sampleAttr s ∧ Step sampleSymbols sampleAttr s s' ∧
    (s'.machine.cpu.rip = 0x108 ∧ s'.machine.cpu.reg .rdi = 0x6000 ∧ s'.machine.cpu.reg .rsi = 7) ∧ Step sampleSymbols sampleAttr s' s'' ∧
    s''.machine.cpu.rip = 0x106 ∧ ∀ r ∈ Reg.rsp :: calleeSaved, s''.machine.cpu.reg r = sampleState.cpu.reg r := by
  have create : Step sampleSymbols sampleAttr sampleBoot sampleBoth := .create nofun rfl ⟨spanApart (by decide) (by decide),nofun⟩
  have run : Reached sampleSymbols sampleAttr sampleBoth := .step (.boot fun _ => rfl) create
  have ready : sampleBoth.parked true = some sampleNew := rfl
  have next : Step sampleSymbols sampleAttr sampleBoth sampleSwitched := .switch ready (yieldedRoom rfl ready rfl (spanApart (by decide) (by decide))
    (.union_right (spanApart (by decide) (by decide)) (spanApart (by decide) (by decide)))
    (.union_right (spanApart (by decide) (by decide)) (spanApart (by decide) (by decide))))
  have started := x64ThreadsGoOn run next nofun ready
  have left : sampleSwitched.parked false = some (.yielded sampleState.cpu) := rfl
  have back := Step.switch left (yieldedRoom (t := true) rfl left started.2.2.2.1 (spanApart (by decide) (by decide))
    (.union_right (spanApart (by decide) (by decide)) (spanApart (by decide) (by decide)))
    (.union_right (spanApart (by decide) (by decide)) (spanApart (by decide) (by decide))))
  have resumed := x64ThreadsGoOn (.step run next) back nofun left
  exact ⟨_,_,_,run,next,⟨started.1,started.2.1,started.2.2.1⟩,back,resumed.2.2,resumed.1⟩

end TskSw.X64Switches
