import TskSw.TrapCounts
import TskSw.WordMemory

/-! The trap entry and exit of `hal/x64/traps.S` with the vectors that `gen-vec.py` writes, the
switch of `hal-x64/ctxsw.h` and the start of a thread in `ctxsw_glue.S` and `thr_context.c`,
as the processor runs them one instruction after the other. -/
namespace TskSw.X64Machine
open ByteMemory WordMemory TrapCounts

inductive Reg where
  | rax | rbx | rcx | rdx | rbp | rsi | rdi | r8 | r9 | r10 | r11 | r12 | r13 | r14 | r15 | rsp
  deriving DecidableEq

structure Cpu where
  reg : Reg → Word
  rip : Word
  rflags : Word
  cs : Word
  ss : Word

structure Machine where
  cpu : Cpu
  mem : Mem

def cf : Nat := 0
def pf : Nat := 2
def af : Nat := 4
def zf : Nat := 6
def sf : Nat := 7
def tf : Nat := 8
def intf : Nat := 9
def df : Nat := 10
def of : Nat := 11
def nt : Nat := 14

def parity (w : Word) : Bool := ((List.range 8).countP w.getLsbD) % 2 = 0

def status (w : Word) (carry overflow aux : Bool) (f : Word) : Word :=
  setFlag of overflow (setFlag sf w.msb (setFlag zf (w = 0) (setFlag af aux (setFlag pf (parity w) (setFlag cf carry f)))))

-- In the order of AT&T operands, the destination last; a call comes with the address of the next instruction.
inductive Instr where
  | push (r : Reg)
  | pushImm (w : Word)
  | pop (r : Reg)
  | pushfq
  | popfq
  | mov (src dst : Reg)
  | movImm (w : Word) (dst : Reg)
  | loadFrom (a : Addr) (dst : Reg)
  | load (offset : Word) (base dst : Reg)
  | store (src base : Reg)
  | and (w : Word) (dst : Reg)
  | cmp (w : Word) (dst : Reg)
  | add (w : Word) (dst : Reg)
  | cli
  | sti
  | cld
  | call (target next : Word)
  | ret
  | jmp (r : Reg)
  | iretq

def Machine.set (m : Machine) (r : Reg) (w : Word) : Machine := {m with cpu := {m.cpu with reg := Function.update m.cpu.reg r w}}

def Machine.flags (m : Machine) (f : Word) : Machine := {m with cpu := {m.cpu with rflags := f}}

def Machine.goTo (m : Machine) (a : Word) : Machine := {m with cpu := {m.cpu with rip := a}}

def Machine.rsp (m : Machine) : Addr := m.cpu.reg .rsp

def Machine.pushes (m : Machine) (ws : List Word) : Machine :=
  {m.set .rsp (pushAll ws (m.rsp,m.mem)).1 with mem := (pushAll ws (m.rsp,m.mem)).2}

def popMask : Word := 0x247fd5
def resumeFlag : Word := 0x10000

def step : Instr → Machine → Machine
  | .push r,m => m.pushes [m.cpu.reg r]
  | .pushImm w,m => m.pushes [w]
  | .pop r,m => (m.set .rsp (m.rsp + 8)).set r (word m.mem m.rsp)
  | .pushfq,m => m.pushes [m.cpu.rflags &&& 0xfcffff]
  | .popfq,m => (m.set .rsp (m.rsp + 8)).flags (word m.mem m.rsp &&& popMask ||| m.cpu.rflags &&& ~~~(popMask ||| resumeFlag))
  | .mov src dst,m => m.set dst (m.cpu.reg src)
  | .movImm w dst,m => m.set dst w
  | .loadFrom a dst,m => m.set dst (word m.mem a)
  | .load offset base dst,m => m.set dst (word m.mem (m.cpu.reg base + offset))
  | .store src base,m => {m with mem := put m.mem (m.cpu.reg base) (m.cpu.reg src)}
  | .and w dst,m =>
    let r := m.cpu.reg dst &&& w
    (m.set dst r).flags (status r false false (m.cpu.rflags.getLsbD af) m.cpu.rflags)
  | .cmp w dst,m =>
    let a := m.cpu.reg dst
    let r := a - w
    m.flags (status r (a < w) (a.msb ≠ w.msb ∧ r.msb ≠ a.msb) ((a &&& 0xf) < (w &&& 0xf)) m.cpu.rflags)
  | .add w dst,m =>
    let a := m.cpu.reg dst
    let r := a + w
    (m.set dst r).flags (status r (r < a) (a.msb = w.msb ∧ r.msb ≠ a.msb) (0xf < (a &&& 0xf) + (w &&& 0xf)) m.cpu.rflags)
  | .cli,m => m.flags (setFlag intf false m.cpu.rflags)
  | .sti,m => m.flags (setFlag intf true m.cpu.rflags)
  | .cld,m => m.flags (setFlag df false m.cpu.rflags)
  | .call target next,m => (m.pushes [next]).goTo target
  | .ret,m => (m.set .rsp (m.rsp + 8)).goTo (word m.mem m.rsp)
  | .jmp r,m => m.goTo (m.cpu.reg r)
  | .iretq,m =>
    { m with cpu :=
        { reg := Function.update m.cpu.reg .rsp (word m.mem (m.rsp + 8 + 8 + 8))
          rip := word m.mem m.rsp
          cs := word m.mem (m.rsp + 8)
          rflags := word m.mem (m.rsp + 8 + 8)
          ss := word m.mem (m.rsp + 8 + 8 + 8 + 8) } }

def exec (is : List Instr) (m : Machine) : Machine := is.foldl (fun m i => step i m) m

def zero (m : Machine) : Bool := m.cpu.rflags.getLsbD zf

structure Symbols where
  current : Addr
  intrStackEnd : Addr
  halCommonTrapHandler : Word
  retFromTrap : Word
  thrHandleTaskExceptionHandler : Word
  afterTaskException : Word
  switched : Word
  startThread : Word
  thrThreadStart : Word
  thrExitThread : Word
  labels : switched ≠ startThread

structure Delivery where
  vector : BitVec 8
  errorCode : Word

-- Double fault, the faults 10 to 14 and the alignment check.
def pushesErrorCode (v : BitVec 8) : Bool := v = 8 ∨ 10 ≤ v ∧ v ≤ 14 ∨ v = 17

def kernCode64 : Word := 0x20

def trapSyscall : BitVec 8 := 0x90

def deliver (d : Delivery) (m : Machine) : Machine :=
  let c := m.cpu
  let flags := setFlag tf false (setFlag nt false c.rflags)
  let m := (m.set .rsp (m.rsp &&& ~~~0xf)).pushes
    ([c.ss,c.reg .rsp,c.rflags,c.cs,c.rip] ++ if pushesErrorCode d.vector then [d.errorCode] else [])
  {m with cpu := {m.cpu with cs := kernCode64,rflags := if d.vector = trapSyscall then flags else setFlag intf false flags}}

def vectorStub (v : BitVec 8) : List Instr :=
  (if ¬ (v = 8 ∨ v ≥ 10 ∧ v ≤ 14 ∨ v = 17) then [.pushImm 0] else []) ++ [.pushImm (v.setWidth 64)]

def general : List Reg := [.r15,.r14,.r13,.r12,.r11,.r10,.r9,.r8,.rdi,.rsi,.rbp,.rdx,.rcx,.rbx,.rax]

def buildTrapContext : List Instr := [.cli,.cld] ++ general.map .push ++ [.mov .rsp .rdi]

def threadTinfoOffset : Word := 32
def tiPreemptOffset : Word := 0

variable (y : Symbols)

def lookAtCount : List Instr :=
  [.loadFrom y.current .r12,.load threadTinfoOffset .r12 .r13,.load tiPreemptOffset .r13 .r14,.and 0xffff .r14,.cmp 0 .r14]

def changeStack : List Instr := [.movImm y.intrStackEnd .rbx,.mov .rbx .rsp,.push .rdi]

def enter (d : Delivery) (s : Machine) : Machine :=
  let s := exec (vectorStub d.vector ++ buildTrapContext ++ lookAtCount y) (deliver d s)
  let s := if zero s then exec (changeStack y) s else s
  exec [.call y.halCommonTrapHandler y.retFromTrap] s

def restoreContext : List Instr :=
  [Reg.rax,.rbx,.rcx,.rdx,.rbp,.rsi,.rdi,.r8,.r9,.r10,.r11,.r12,.r13,.r14,.r15].map .pop ++ [.add 16 .rsp,.iretq]

def retFromTrap (s : Machine) : Machine :=
  let s := exec ([.cli] ++ lookAtCount y) s
  if zero s then exec [.pop .rbx,.mov .rbx .rsp,.sti,.call y.thrHandleTaskExceptionHandler y.afterTaskException] s
  else exec restoreContext s

def leave (s : Machine) : Machine :=
  let s := step .ret s
  if s.cpu.rip = y.retFromTrap then retFromTrap y s else s

def restore (s : Machine) : Machine :=
  let s := step .ret s
  if s.cpu.rip = y.afterTaskException then exec ([.cli] ++ restoreContext) s else s

def tinfoCell (m : Mem) : Addr := word m y.current + threadTinfoOffset
def preemptCell (m : Mem) : Addr := word m (tinfoCell y m) + tiPreemptOffset

def trapCount (m : Mem) : Word := word m (preemptCell y m) &&& 0xffff

def kind (d : Delivery) : Option Kind := (Trap.x64 (d.vector.setWidth 64)).kind

def counted (d : Delivery) (diff : Word) (s : Machine) : Machine :=
  {s with mem := put s.mem (preemptCell y s.mem) (update (kind d) diff (word s.mem (preemptCell y s.mem)))}

def calleeSaved : List Reg := [.rbx,.rbp,.r12,.r13,.r14,.r15]

def switchOut : List Instr :=
  [.pushfq] ++ calleeSaved.map .push ++ [.movImm y.switched .r11,.push .r11,.store .rsp .rcx,.load 0 .rdx .rsp,.ret]

def switchIn : List Instr := calleeSaved.reverse.map .pop ++ [.popfq]

def startThread : List Instr := [.load 8 .rsp .rdi,.load 16 .rsp .rsi,.movImm y.thrThreadStart .r11,.jmp .r11]

def halDoContextSwitch (prev next : Addr) (s : Machine) : Machine :=
  let s := exec ([.movImm prev .rcx,.movImm next .rdx] ++ switchOut y) s
  if s.cpu.rip = y.switched then exec switchIn s
  else if s.cpu.rip = y.startThread then exec (startThread y) s else s

def halSetupThreadFunction (tinfo : Addr) (fn arg : Word) (m : Mem) : Addr × Mem :=
  let sp := tinfo - 8
  let m := put m sp arg
  let sp := sp - 8
  let m := put m sp fn
  let sp := sp - 8
  let m := put m sp y.thrExitThread
  let sp := sp - 8
  (sp,put m sp y.startThread)

variable {y} {m n : Machine}

theorem statusZero {w f : Word} (carry overflow aux) : (status w carry overflow aux f).getLsbD zf = decide (w = 0) := by
  rw [status,setFlagBit _ (by decide),setFlagBit _ (by decide),setFlagBit _ (by decide)]
  rfl

theorem execAppend (is js : List Instr) (m : Machine) : exec (is ++ js) m = exec js (exec is m) := List.foldl_append

theorem execCons (i : Instr) (is : List Instr) (m : Machine) : exec (i :: is) m = exec is (step i m) := List.foldl_cons ..

@[simp] theorem setSelf (m : Machine) (r : Reg) (w : Word) : (m.set r w).cpu.reg r = w := by
  simp only [Machine.set,Function.update_self]

@[simp] theorem setOther {r x : Reg} (other : x ≠ r) (m : Machine) (w : Word) : (m.set r w).cpu.reg x = m.cpu.reg x := by
  simp only [Machine.set,Function.update_of_ne other]

@[simp] theorem setRsp (m : Machine) (w : Word) : (m.set .rsp w).rsp = w := setSelf m .rsp w

structure Pushes (ws : List Word) (m n : Machine) : Prop where
  stack : (n.rsp,n.mem) = pushAll ws (m.rsp,m.mem)
  regs : ∀ r ≠ .rsp, n.cpu.reg r = m.cpu.reg r

theorem Pushes.more {us vs : List Word} {k : Machine} (first : Pushes us m n) (second : Pushes vs n k) : Pushes (us ++ vs) m k :=
  ⟨by rw [pushAllAppend,← first.stack,second.stack],fun r other => (second.regs r other).trans (first.regs r other)⟩

theorem Pushes.same {ws : List Word} {k : Machine} (pushes : Pushes ws m n) (regs : k.cpu.reg = n.cpu.reg) (mem : k.mem = n.mem) :
    Pushes ws m k := by
  refine ⟨?_,fun r other => ?_⟩
  · rw [← pushes.stack,mem,Machine.rsp,regs,Machine.rsp]
  · rw [regs,pushes.regs r other]

theorem pushesAll (ws) : Pushes ws m (m.pushes ws) := by
  refine ⟨?_,fun r other => ?_⟩
  · simp [Machine.pushes,Machine.rsp,Machine.set]
  · simp [Machine.pushes,Machine.set,other]

theorem pushesRegs (rs : List Reg) (clean : .rsp ∉ rs) (m : Machine) : Pushes (rs.map m.cpu.reg) m (exec (rs.map .push) m) := by
  induction rs generalizing m with
  | nil => exact ⟨rfl,fun _ _ => rfl⟩
  | cons r rs ih =>
    have others : ∀ x ∈ rs, x ≠ .rsp := fun x there same => clean (same ▸ List.mem_cons_of_mem _ there)
    have first := pushesAll (m := m) [m.cpu.reg r]
    have second := ih (fun there => others _ there rfl) (m.pushes [m.cpu.reg r])
    rw [List.map_congr_left fun x there => first.regs x (others x there)] at second
    exact first.more second

structure Pops (rs : List Reg) (f : Reg → Word) (m n : Machine) : Prop where
  rsp : n.rsp = m.rsp + BitVec.ofNat 64 (8*rs.length)
  loaded : ∀ r ∈ rs, n.cpu.reg r = f r
  mem : n.mem = m.mem
  rip : n.cpu.rip = m.cpu.rip

theorem pops {rs : List Reg} {f : Reg → Word} (clean : .rsp ∉ rs) (holds : Holds m.mem m.rsp (rs.map f)) :
    Pops rs f m (exec (rs.map .pop) m) ∧ ∀ r ∉ rs, r ≠ .rsp → (exec (rs.map .pop) m).cpu.reg r = m.cpu.reg r := by
  induction rs generalizing m with
  | nil => exact ⟨⟨(BitVec.add_zero _).symm,nofun,rfl,rfl⟩,fun _ _ _ => rfl⟩
  | cons r rs ih =>
    have other : r ≠ .rsp := fun same => clean (same ▸ List.mem_cons_self)
    have sp : (step (.pop r) m).rsp = m.rsp + 8 := (setOther other.symm _ _).trans (setRsp ..)
    have value : (step (.pop r) m).cpu.reg r = f r := (setSelf ..).trans holds.1
    have rest : Holds (step (.pop r) m).mem (step (.pop r) m).rsp (rs.map f) := by
      rw [sp]
      exact holds.2
    obtain ⟨later,kept⟩ := ih (fun there => clean (List.mem_cons_of_mem _ there)) rest
    refine ⟨⟨?_,?_,later.mem,later.rip⟩,?_⟩
    · rw [List.map_cons,execCons,later.rsp,sp,List.length_cons]
      bv_omega
    · intro x there
      rw [List.map_cons,execCons]
      by_cases again : x ∈ rs
      · exact later.loaded x again
      · obtain rfl := (List.mem_cons.mp there).resolve_right again
        exact (kept x again other).trans value
    · intro x absent notRsp
      have apart := not_or.mp (mt List.mem_cons.mpr absent)
      rw [List.map_cons,execCons,kept x apart.2 notRsp]
      exact (setOther apart.1 _ _).trans (setOther notRsp _ _)

theorem looked (y m) :
    let s := exec (lookAtCount y) m
    s.rsp = m.rsp ∧ s.mem = m.mem ∧ s.cpu.reg .rdi = m.cpu.reg .rdi ∧ (zero s ↔ trapCount y m.mem = 0) := by
  refine ⟨?_,?_,?_,?_⟩
  · simp [exec,lookAtCount,step,Machine.set,Machine.flags,Machine.rsp]
  · rfl
  · simp [exec,lookAtCount,step,Machine.set,Machine.flags]
  · simp [exec,lookAtCount,step,Machine.set,Machine.flags,zero,statusZero,trapCount,preemptCell,tinfoCell]

end TskSw.X64Machine
