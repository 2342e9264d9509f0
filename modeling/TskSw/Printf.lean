import Mathlib.Algebra.Group.Nat.Defs
import Mathlib.Data.List.Infix

/-! `kvprintf` of `common/printf.c`, one character of the format after the other. A format that
ends within a directive is read on behind its terminator, so the memory there is part of the
input. Only the literal characters are held against the length of the buffer. -/
namespace TskSw.Printf

abbrev Byte := BitVec 8

def byte (c : Char) : Byte := BitVec.ofNat 8 c.toNat

structure Text where
  bytes : List Byte
  text : 0 ∉ bytes

inductive ArgType where
  | int
  | long
  | pointer
  | string
  deriving DecidableEq

inductive Arg where
  | int (v : BitVec 32)
  | long (v : BitVec 64)
  | pointer (v : BitVec 64)
  | string (p : Option Text)

def Arg.type : Arg → ArgType
  | .int _ => .int
  | .long _ => .long
  | .pointer _ => .pointer
  | .string _ => .string

def nullfmt : List Byte := ['(','f','m','t',' ','n','u','l','l',')'].map byte
def nullString : List Byte := ['(','n','u','l','l',')'].map byte
def minRadix : Int := 2
def maxRadix : Int := 36
def defaultRadix : Nat := 10

def hex2asciiData : List Byte := ['0','1','2','3','4','5','6','7','8','9','a','b','c','d','e','f','g','h','i','j','k','l','m',
  'n','o','p','q','r','s','t','u','v','w','x','y','z'].map byte

structure Cmd where
  dot : Bool := false
  sign : Bool := false
  ladjust : Bool := false
  upper : Bool := false
  cflag : Bool := false
  hflag : Bool := false
  lflag : Bool := false
  qflag : Bool := false
  sharpflag : Bool := false
  tflag : Bool := false
  zflag : Bool := false

structure Directive where
  cmd : Cmd := {}
  width : BitVec 32 := 0
  padchar : Byte := byte ' '
  text : List Byte

inductive Mode where
  | literal
  | directive (d : Directive)
  | digits (d : Directive) (n : BitVec 32)

structure Scan where
  mode : Mode := .literal
  discard : Bool := false
  dwidth : BitVec 32 := 0
  args : List Arg

inductive Key where
  | dot | sharp | plus | minus | percent | star | zero | digit | char | int | h | l | octal | pointer | q | radix | string | t
  | unsigned | upperHex | hex | signedHex | z | other
  deriving DecidableEq

def key (c : Byte) : Key :=
  match Char.ofNat c.toNat with
  | '.' => .dot
  | '#' => .sharp
  | '+' => .plus
  | '-' => .minus
  | '%' => .percent
  | '*' => .star
  | '0' => .zero
  | '1' | '2' | '3' | '4' | '5' | '6' | '7' | '8' | '9' => .digit
  | 'c' => .char
  | 'd' | 'i' => .int
  | 'h' => .h
  | 'l' => .l
  | 'o' => .octal
  | 'p' => .pointer
  | 'q' => .q
  | 'r' => .radix
  | 's' => .string
  | 't' => .t
  | 'u' => .unsigned
  | 'X' => .upperHex
  | 'x' => .hex
  | 'y' => .signedHex
  | 'z' => .z
  | _ => .other

def ktoupper (c : Byte) : Byte := if byte 'a' ≤ c ∧ c ≤ byte 'z' then c - 0x20 else c

def hex2ascii (upper : Bool) (i : Nat) : Byte :=
  let c := hex2asciiData.getD i 0
  if upper then ktoupper c else c

-- The digits in the order in which they are printed; 64 rounds are enough for any base.
def ksprintnLoop (base : Nat) (upper : Bool) : Nat → Nat → List Byte
  | 0,_ => []
  | fuel+1,num => if num/base = 0 then [hex2ascii upper (num%base)] else ksprintnLoop base upper fuel (num/base) ++ [hex2ascii upper (num%base)]

def ksprintn (num : BitVec 64) (base : Nat) (upper : Bool) : List Byte := ksprintnLoop base upper 64 num.toNat

def Cmd.wide (cmd : Cmd) : Bool := cmd.qflag || cmd.tflag || cmd.lflag || cmd.zflag

def narrow (signedChar : Bool) (cmd : Cmd) (v : BitVec 32) : BitVec 64 :=
  if cmd.sign then
    if cmd.hflag then (v.setWidth 16).signExtend 64
    else if cmd.cflag then if signedChar then (v.setWidth 8).signExtend 64 else (v.setWidth 8).setWidth 64
    else v.signExtend 64
  else
    if cmd.hflag then (v.setWidth 16).setWidth 64
    else if cmd.cflag then (v.setWidth 8).setWidth 64
    else v.setWidth 64

def vaArgNum (signedChar : Bool) (cmd : Cmd) : List Arg → Option (BitVec 64 × List Arg)
  | .long v :: args => if cmd.wide then some (v,args) else none
  | .int v :: args => if cmd.wide then none else some (narrow signedChar cmd v,args)
  | _ => none

def pad (on : Bool) (width tmp : BitVec 32) (padchar : Byte) : BitVec 32 × List Byte :=
  if on ∧ width ≠ 0 then
    if 0 < (width-tmp).toInt then (-1,List.replicate (width-tmp).toNat padchar) else (width-tmp,[])
  else (width,[])

def number (cmd : Cmd) (base : Nat) (width : BitVec 32) (padchar : Byte) (num : BitVec 64) : List Byte :=
  let neg := cmd.sign && decide (num.toInt < 0)
  let num := if neg then -num else num
  let digits := ksprintn num base cmd.upper
  let mark := if cmd.sharpflag ∧ num ≠ 0 then
      if base = 8 then [byte '0'] else if base = 16 then [byte '0',byte 'x'] else []
    else []
  let minus := if neg then [byte '-'] else []
  let tmp := BitVec.ofNat 32 (digits.length + mark.length + minus.length)
  let (width,before) := pad (!cmd.ladjust && padchar != byte '0') width tmp padchar
  let (width,zeros) := pad (!cmd.ladjust) width tmp padchar
  let (_,after) := pad cmd.ladjust width tmp padchar
  before ++ minus ++ mark ++ zeros ++ digits ++ after

def upTo (dwidth : BitVec 32) : BitVec 32 → List Byte → BitVec 32
  | n,[] => n
  | n,_ :: rest => if n.toInt < dwidth.toInt then upTo dwidth (n+1) rest else n

def string (cmd : Cmd) (width dwidth : BitVec 32) (padchar : Byte) (p : Option Text) : List Byte :=
  let p := (p.map Text.bytes).getD nullString
  let n := if cmd.dot then upTo dwidth 0 p else BitVec.ofNat 32 p.length
  let width := width - n
  let padding := if 0 < width.toInt then List.replicate width.toNat padchar else []
  if cmd.ladjust then p.take n.toNat ++ padding else padding ++ p.take n.toNat

section Scanner
variable (signedChar : Bool) (radix : Nat)

def again (s : Scan) (d : Directive) : Option (Scan × List Byte) := some ({s with mode := .directive d},[])

def handle (cmd : Cmd) (base : Nat) (d : Directive) (s : Scan) : Option (Scan × List Byte) := do
  let (num,args) ← vaArgNum signedChar cmd s.args
  some ({s with mode := .literal, args := args},number cmd base d.width d.padchar num)

def reswitch (c : Byte) (d : Directive) (s : Scan) : Option (Scan × List Byte) :=
  match key c with
  | .dot => again s {d with cmd.dot := true}
  | .sharp => again s {d with cmd.sharpflag := true}
  | .plus => again s {d with cmd.sign := true}
  | .minus => again s {d with cmd.ladjust := true}
  | .percent => some ({s with mode := .literal},[c])
  | .star =>
    match s.args with
    | .int v :: args =>
      if d.cmd.dot then again {s with args := args, dwidth := v} d
      else if v.toInt < 0 then again {s with args := args} {d with cmd.ladjust := !d.cmd.ladjust, width := -v}
      else again {s with args := args} {d with width := v}
    | _ => none
  | .zero => if d.cmd.dot then some ({s with mode := .digits d (c.setWidth 32 - 48)},[]) else again s {d with padchar := byte '0'}
  | .digit => some ({s with mode := .digits d (c.setWidth 32 - 48)},[])
  | .char =>
    match s.args with
    | .int v :: args => some ({s with mode := .literal, args := args},[v.setWidth 8])
    | _ => none
  | .int => handle signedChar {d.cmd with sign := true} 10 d s
  | .h => again s {d with cmd.hflag := !d.cmd.hflag, cmd.cflag := d.cmd.cflag || d.cmd.hflag}
  | .l => again s {d with cmd.lflag := !d.cmd.lflag, cmd.qflag := d.cmd.qflag || d.cmd.lflag}
  | .octal => handle signedChar {d.cmd with sign := false} 8 d s
  | .pointer =>
    match s.args with
    | .pointer v :: args =>
      some ({s with mode := .literal, args := args},
        number {d.cmd with sharpflag := decide (d.width = 0), sign := false} 16 d.width d.padchar v)
    | _ => none
  | .q => again s {d with cmd.qflag := true}
  | .radix => handle signedChar d.cmd radix d s
  | .string =>
    match s.args with
    | .string p :: args => some ({s with mode := .literal, args := args},string d.cmd d.width s.dwidth d.padchar p)
    | _ => none
  | .t => again s {d with cmd.tflag := true}
  | .unsigned => handle signedChar {d.cmd with sign := false} 10 d s
  | .upperHex => handle signedChar {d.cmd with upper := true, sign := false} 16 d s
  | .hex => handle signedChar {d.cmd with sign := false} 16 d s
  | .signedHex => handle signedChar {d.cmd with sign := true} 16 d s
  | .z => again s {d with cmd.zflag := true}
  | .other => some ({s with mode := .literal, discard := true},d.text)

def Scan.literal (s : Scan) (c : Byte) : Bool :=
  match s.mode with
  | .literal => c ≠ byte '%' ∨ s.discard
  | _ => false

def directive (c : Byte) (s : Scan) : Option (Scan × List Byte) :=
  match s.mode with
  | .literal => again s {text := [c]}
  | .directive d => reswitch signedChar radix c {d with text := d.text ++ [c]} s
  | .digits d n =>
    let d := {d with text := d.text ++ [c]}
    if byte '0' ≤ c ∧ c ≤ byte '9' then some ({s with mode := .digits d (n*10 + c.setWidth 32 - 48)},[])
    else if d.cmd.dot then reswitch signedChar radix c d {s with dwidth := n}
    else reswitch signedChar radix c {d with width := n} s

end Scanner

structure State where
  scan : Scan
  out : List Byte

inductive Outcome where
  | more (s : State)
  | returned (out : List Byte) (ret : BitVec 32)
  | mismatch

section Loop
variable (signedChar : Bool) (len : BitVec 64) (radix : Nat)

-- `rc >= (len - 1)`; the `int` is widened with its sign.
def full (out : List Byte) : Prop := len - 1 ≤ (BitVec.ofNat 32 out.length).signExtend 64

instance (out : List Byte) : Decidable (full len out) := inferInstanceAs (Decidable (_ ≤ _))

def result (out : List Byte) : BitVec 32 := if full len out then (len-1).setWidth 32 else BitVec.ofNat 32 out.length

def step (c : Byte) (s : State) : Outcome :=
  if s.scan.literal c then
    if c = 0 ∨ full len s.out then .returned s.out (result len s.out) else .more {s with out := s.out ++ [c]}
  else
    match directive signedChar radix c s.scan with
    | some (scan,o) => .more ⟨scan,s.out ++ o⟩
    | none => .mismatch

def kvLoop : List Byte → State → Outcome
  | [],s => .more s
  | c :: mem,s =>
    match step signedChar len radix c s with
    | .more s => kvLoop mem s
    | other => other

end Loop

def normalRadix (radix : BitVec 32) : Nat := if radix.toInt < minRadix ∨ maxRadix < radix.toInt then defaultRadix else radix.toNat

def kvprintf (signedChar : Bool) (len : BitVec 64) (fmt : Option (List Byte)) (radix : BitVec 32) (args : List Arg) : Outcome :=
  let mem := fmt.getD (nullfmt ++ [0])
  if len = 0 then .returned [] 0 else kvLoop signedChar len (normalRadix radix) mem ⟨{args := args},[]⟩

section Specification

def wants : Option Bool → List Byte → List ArgType
  | _,[] => []
  | none,c :: rest => if c = byte '%' then wants (some false) rest else wants none rest
  | some wide,c :: rest =>
    match key c with
    | .dot | .sharp | .plus | .minus | .zero | .digit | .h => wants (some wide) rest
    | .l | .q | .t | .z => wants (some true) rest
    | .star => .int :: wants (some wide) rest
    | .percent => wants none rest
    | .char => .int :: wants none rest
    | .int | .octal | .radix | .unsigned | .upperHex | .hex | .signedHex => (if wide then .long else .int) :: wants none rest
    | .pointer => .pointer :: wants none rest
    | .string => .string :: wants none rest
    | .other => []

inductive Piece where
  | literal (c : Byte)
  | output (o : List Byte)

def pieces (signedChar : Bool) (radix : Nat) : Scan → List Byte → List Piece
  | _,[] => []
  | s,c :: rest =>
    if s.literal c then .literal c :: pieces signedChar radix s rest
    else
      match directive signedChar radix c s with
      | some (s,o) => .output o :: pieces signedChar radix s rest
      | none => []

def Fits (room : Nat) : Nat → List Piece → Prop
  | _,[] => True
  | n,.literal _ :: rest => n < room → Fits room (n+1) rest
  | n,.output o :: rest => n + o.length ≤ room ∧ Fits room (n + o.length) rest

def tally (room : Nat) : Nat → List Piece → Nat
  | n,[] => n
  | n,.literal c :: rest => if c = 0 ∨ room ≤ n then n else tally room (n+1) rest
  | n,.output o :: rest => tally room (n + o.length) rest

structure Bounded (len : BitVec 64) (out : List Byte) (ret : BitVec 32) : Prop where
  stored : out.length + 1 ≤ len.toNat
  counted : ret.toInt = out.length
  terminated : 0 ≤ ret.toInt ∧ ret.toInt < len.toNat

def Text.cells (fmt : Text) (beyond : Nat → Byte) (n : Nat) : List Byte := fmt.bytes ++ 0 :: (List.range n).map beyond

def text (fmt : Option Text) : List Byte := (fmt.map Text.bytes).getD nullfmt

def cells (fmt : Option Text) (beyond : Nat → Byte) (n : Nat) : List Byte := (fmt.map fun f => f.cells beyond n).getD (nullfmt ++ [0])

end Specification

variable {base : Nat} {out : List Byte} {c : Byte} {scan : Scan} {cmd : Cmd}

section Digits
variable {upper : Bool}

theorem loopEnough (low : 2 ≤ base) {fuel num} (small : num < 2^(fuel+1)) :
    ksprintnLoop base upper (fuel+2) num = ksprintnLoop base upper (fuel+1) num := by
  induction fuel generalizing num with
  | zero =>
    have last : num/base = 0 := Nat.div_eq_of_lt (by omega)
    simp only [ksprintnLoop,if_pos last]
  | succ fuel ih =>
    have less : num/base < 2^(fuel+1) := by
      rw [Nat.div_lt_iff_lt_mul (by omega)]
      calc num < 2^(fuel+1)*2 := by rw [← Nat.pow_succ]; exact small
        _ ≤ 2^(fuel+1)*base := Nat.mul_le_mul_left _ low
    rw [ksprintnLoop,ih less]
    rfl

theorem ksprintnEnds (low : 2 ≤ base) (num extra) : ksprintnLoop base upper (64+extra) num.toNat = ksprintn num base upper := by
  induction extra with
  | zero => rfl
  | succ extra ih =>
    have small : num.toNat < 2^(63+extra+1) := Nat.lt_of_lt_of_le num.isLt (Nat.pow_le_pow_right (by decide) (by omega))
    rw [← ih,show 64+(extra+1) = 63+extra+2 by omega,show 64+extra = 63+extra+1 by omega]
    exact loopEnough low small

end Digits

section Lengths
variable {len : BitVec 64}

theorem countLength (small : out.length < 2^31) : (BitVec.ofNat 32 out.length).toNat = out.length := by
  rw [BitVec.toNat_ofNat]
  exact Nat.mod_eq_of_lt (by omega)

theorem lessLength (some : 1 ≤ len.toNat) : (len-1).toNat = len.toNat-1 := BitVec.toNat_sub_of_le some

theorem fullLength (some : 1 ≤ len.toNat) (small : out.length < 2^31) : full len out ↔ len.toNat - 1 ≤ out.length := by
  have plain : (BitVec.ofNat 32 out.length).msb = false := by
    rw [BitVec.msb_eq_false_iff_two_mul_lt,countLength small]
    omega
  have wide : ((BitVec.ofNat 32 out.length).signExtend 64).toNat = out.length := by
    rw [BitVec.signExtend_eq_setWidth_of_msb_false plain,BitVec.toNat_setWidth,countLength small]
    exact Nat.mod_eq_of_lt (by omega)
  rw [full,BitVec.le_def,wide,lessLength some]

theorem resultLength (some : 1 ≤ len.toNat) (small : out.length < 2^31) (inside : out.length + 1 ≤ len.toNat) :
    (result len out).toInt = out.length := by
  have same : result len out = BitVec.ofNat 32 out.length := by
    rw [result]
    split
    · rename_i stop
      have all := (fullLength some small).mp stop
      refine BitVec.eq_of_toNat_eq ?_
      rw [BitVec.toNat_setWidth,lessLength some,countLength small]
      omega
    · rfl
  rw [same,BitVec.toInt_eq_toNat_of_lt (by rw [countLength small]; omega),countLength small]

theorem boundedIff (some : 1 ≤ len.toNat) : Bounded len out (result len out) ↔ out.length + 1 ≤ len.toNat ∧ out.length < 2^31 := by
  constructor
  · rintro ⟨stored,counted,_⟩
    have := BitVec.toInt_lt (x := result len out)
    exact ⟨stored,by omega⟩
  · rintro ⟨stored,small⟩
    have counted := resultLength some small stored
    exact ⟨stored,counted,by omega⟩

end Lengths

section Runs
variable {signedChar : Bool} {len : BitVec 64} {radix : Nat} {mem : List Byte} {s : State} {ret : BitVec 32}

theorem loopStops (literal : s.scan.literal c = true) (stop : c = 0 ∨ full len s.out) :
    kvLoop signedChar len radix (c :: mem) s = .returned s.out (result len s.out) := by
  rw [kvLoop,step,if_pos literal,if_pos stop]

theorem loopStores (literal : s.scan.literal c = true) (goes : ¬ (c = 0 ∨ full len s.out)) :
    kvLoop signedChar len radix (c :: mem) s = kvLoop signedChar len radix mem {s with out := s.out ++ [c]} := by
  rw [kvLoop,step,if_pos literal,if_neg goes]

theorem loopDirects {scan o} (inside : s.scan.literal c = false) (ran : directive signedChar radix c s.scan = some (scan,o)) :
    kvLoop signedChar len radix (c :: mem) s = kvLoop signedChar len radix mem ⟨scan,s.out ++ o⟩ := by
  rw [kvLoop,step,if_neg (by rw [inside]; exact Bool.false_ne_true),ran]

theorem loopCases (ran : kvLoop signedChar len radix (c :: mem) s = .returned out ret) :
    s.scan.literal c = true ∧ (c = 0 ∨ full len s.out) ∧ out = s.out ∧ ret = result len s.out ∨
    s.scan.literal c = true ∧ ¬ (c = 0 ∨ full len s.out) ∧ kvLoop signedChar len radix mem {s with out := s.out ++ [c]} = .returned out ret ∨
    ∃ scan o, s.scan.literal c = false ∧ directive signedChar radix c s.scan = some (scan,o) ∧
      kvLoop signedChar len radix mem ⟨scan,s.out ++ o⟩ = .returned out ret := by
  cases literal : s.scan.literal c with
  | true =>
    by_cases stop : c = 0 ∨ full len s.out
    · rw [loopStops literal stop] at ran
      cases ran
      exact Or.inl ⟨rfl,stop,rfl,rfl⟩
    · rw [loopStores literal stop] at ran
      exact Or.inr (Or.inl ⟨rfl,stop,ran⟩)
  | false =>
    cases directed : directive signedChar radix c s.scan with
    | none =>
      rw [kvLoop,step,if_neg (by rw [literal]; exact Bool.false_ne_true),directed] at ran
      cases ran
    | some next =>
      rw [loopDirects literal directed] at ran
      exact Or.inr (Or.inr ⟨next.1,next.2,rfl,rfl,ran⟩)

theorem loopGrows (ran : kvLoop signedChar len radix mem s = .returned out ret) : s.out.length ≤ out.length ∧ ret = result len out := by
  induction mem generalizing s with
  | nil => cases ran
  | cons c mem ih =>
    rcases loopCases ran with ⟨_,_,rfl,rfl⟩ | ⟨_,_,ran⟩ | ⟨scan,o,_,_,ran⟩
    · exact ⟨Nat.le_refl _,rfl⟩
    · have grown := ih ran
      rw [List.length_append] at grown
      exact ⟨by omega,grown.2⟩
    · have grown := ih ran
      rw [List.length_append] at grown
      exact ⟨by omega,grown.2⟩

theorem loopAppend (more) (ran : kvLoop signedChar len radix mem s = .returned out ret) :
    kvLoop signedChar len radix (mem ++ more) s = .returned out ret := by
  induction mem generalizing s with
  | nil => cases ran
  | cons c mem ih =>
    rw [List.cons_append]
    rcases loopCases ran with ⟨literal,stop,rfl,rfl⟩ | ⟨literal,goes,ran⟩ | ⟨scan,o,inside,directed,ran⟩
    · exact loopStops literal stop
    · rw [loopStores literal goes]
      exact ih ran
    · rw [loopDirects inside directed]
      exact ih ran

theorem behindFits {mem} (some : 1 ≤ len.toNat) (small : out.length < 2^31) (literal : ∀ c, s.scan.literal c = true)
    (inside : s.out.length + 1 ≤ len.toNat) (ran : kvLoop signedChar len radix mem s = .returned out ret) : out.length + 1 ≤ len.toNat := by
  induction mem generalizing s with
  | nil => cases ran
  | cons c mem ih =>
    rcases loopCases ran with ⟨_,_,rfl,_⟩ | ⟨_,goes,ran⟩ | ⟨_,_,other,_⟩
    · exact inside
    · have grown := (loopGrows ran).1
      rw [List.length_append,List.length_singleton] at grown
      have room : ¬ len.toNat - 1 ≤ s.out.length := fun all => goes (Or.inr ((fullLength some (by omega)).mpr all))
      refine ih (s := {s with out := s.out ++ [c]}) literal ?_ ran
      rw [List.length_append,List.length_singleton]
      omega
    · rw [literal c] at other
      cases other

theorem tallyGrows (room : Nat) (ps : List Piece) (n : Nat) : n ≤ tally room n ps := by
  induction ps generalizing n with
  | nil => exact Nat.le_refl n
  | cons p ps ih =>
    cases p with
    | literal c =>
      rw [tally]
      split
      · exact Nat.le_refl n
      · exact (Nat.le_succ n).trans (ih (n+1))
    | output o => exact (Nat.le_add_right n _).trans (ih _)

theorem loopTally (some : 1 ≤ len.toNat) (ran : kvLoop signedChar len radix mem s = .returned out ret) :
    out.length < 2^31 ↔ tally (len.toNat - 1) s.out.length (pieces signedChar radix s.scan mem) < 2^31 := by
  induction mem generalizing s with
  | nil => cases ran
  | cons c mem ih =>
    have grown := (loopGrows ran).1
    have counted := tallyGrows (len.toNat - 1) (pieces signedChar radix s.scan (c :: mem)) s.out.length
    by_cases small : s.out.length < 2^31
    case neg => exact iff_of_false (by omega) (by omega)
    rcases loopCases ran with ⟨literal,stop,rfl,_⟩ | ⟨literal,goes,ran⟩ | ⟨scan,o,other,directed,ran⟩
    · rw [pieces,if_pos literal,tally,if_pos (stop.imp_right (fullLength some small).mp)]
    · have rest := ih (s := {s with out := s.out ++ [c]}) ran
      rw [List.length_append,List.length_singleton] at rest
      rw [pieces,if_pos literal,tally,if_neg (mt (Or.imp_right (fullLength some small).mpr) goes),rest]
    · have rest := ih (s := ⟨scan,s.out ++ o⟩) ran
      rw [List.length_append] at rest
      rw [pieces,if_neg (by rw [other]; exact Bool.false_ne_true),directed,tally,rest]

theorem literalMode (literal : scan.literal c = true) : scan.mode = .literal ∧ (c ≠ byte '%' ∨ scan.discard = true) := by
  unfold Scan.literal at literal
  split at literal
  · rename_i mode
    exact ⟨mode,of_decide_eq_true literal⟩
  · cases literal

theorem reswitchOther {d scan} (other : key c = .other) :
    reswitch signedChar radix c d scan = some ({scan with mode := .literal, discard := true},d.text) := by
  simp only [reswitch,other]

theorem directiveNul (signedChar radix) (inside : scan.literal 0 = false) :
    ∃ scan' o, directive signedChar radix 0 scan = some (scan',o) ∧ scan'.mode = .literal ∧ scan'.discard = true := by
  have nul : key 0 = .other := by decide
  cases mode : scan.mode with
  | literal =>
    simp only [Scan.literal,mode] at inside
    exact absurd (Or.inl (by decide)) (of_decide_eq_false inside)
  | directive d =>
    simp only [directive,mode,reswitchOther nul]
    exact ⟨_,_,rfl,rfl,rfl⟩
  | digits d n =>
    have plain : ¬ (byte '0' ≤ (0 : Byte) ∧ (0 : Byte) ≤ byte '9') := by decide
    simp only [directive,mode,if_neg plain,reswitchOther nul]
    split
    · exact ⟨_,_,rfl,rfl,rfl⟩
    · exact ⟨_,_,rfl,rfl,rfl⟩

theorem discardLiteral (mode : scan.mode = .literal) (discard : scan.discard = true) (c) : scan.literal c = true := by
  simp only [Scan.literal,mode,discard]
  exact decide_eq_true (Or.inr trivial)

theorem loopFits {bytes} (nonzero : 0 ∉ bytes) (some : 1 ≤ len.toNat) (small : out.length < 2^31) (inside : s.out.length + 1 ≤ len.toNat)
    (ran : kvLoop signedChar len radix (bytes ++ 0 :: mem) s = .returned out ret) :
    out.length + 1 ≤ len.toNat ↔ Fits (len.toNat - 1) s.out.length (pieces signedChar radix s.scan (bytes ++ [0])) := by
  induction bytes generalizing s with
  | nil =>
    rw [List.nil_append] at ran ⊢
    rcases loopCases ran with ⟨literal,_,rfl,_⟩ | ⟨_,goes,_⟩ | ⟨scan,o,other,directed,ran⟩
    · rw [pieces,if_pos literal]
      exact iff_of_true inside fun _ => trivial
    · exact absurd (Or.inl rfl) goes
    · have grown := (loopGrows ran).1
      obtain ⟨scan',o',ended,mode,discard⟩ := directiveNul signedChar radix other
      rw [directed] at ended
      cases ended
      rw [pieces,if_neg (by rw [other]; exact Bool.false_ne_true),directed]
      rw [List.length_append] at grown
      simp only [Fits,pieces,and_true]
      refine ⟨fun bound => by omega,fun bound => ?_⟩
      refine behindFits (s := ⟨scan,s.out ++ o⟩) some small (discardLiteral mode discard) ?_ ran
      rw [List.length_append]
      omega
  | cons c bytes ih =>
    rw [List.cons_append] at ran ⊢
    rcases loopCases ran with ⟨literal,stop,rfl,_⟩ | ⟨literal,goes,ran⟩ | ⟨scan,o,other,directed,ran⟩
    · have all : full len s.out := stop.resolve_left fun e => nonzero (e ▸ List.mem_cons_self)
      have whole := (fullLength some small).mp all
      rw [pieces,if_pos literal]
      exact iff_of_true inside fun room => by omega
    · have grown := (loopGrows ran).1
      rw [List.length_append,List.length_singleton] at grown
      have room : ¬ len.toNat - 1 ≤ s.out.length := fun all => goes (Or.inr ((fullLength some (by omega)).mpr all))
      have rest := ih (s := {s with out := s.out ++ [c]}) (List.not_mem_of_not_mem_cons nonzero)
        (by rw [List.length_append,List.length_singleton]; omega) ran
      rw [List.length_append,List.length_singleton] at rest
      rw [pieces,if_pos literal,Fits,rest]
      exact ⟨fun fits _ => fits,fun fits => fits (by omega)⟩
    · have grown := (loopGrows ran).1
      rw [List.length_append] at grown
      rw [pieces,if_neg (by rw [other]; exact Bool.false_ne_true),directed]
      simp only [Fits]
      by_cases bound : s.out.length + o.length ≤ len.toNat - 1
      · have rest := ih (s := ⟨scan,s.out ++ o⟩) (List.not_mem_of_not_mem_cons nonzero) (by rw [List.length_append]; omega) ran
        rw [List.length_append] at rest
        rw [rest,and_iff_right bound]
      · exact iff_of_false (by omega) fun fits => bound fits.1

end Runs

section Arguments
variable {signedChar : Bool} {radix : Nat} {rest : List Byte} {s : Scan} {d : Directive} {args : List Arg}

def Scan.wants (s : Scan) (rest : List Byte) : List ArgType :=
  match s.mode with
  | .literal => if s.discard then [] else Printf.wants none rest
  | .directive d => Printf.wants (some d.cmd.wide) rest
  | .digits d _ => Printf.wants (some d.cmd.wide) rest

def Suits (s : Scan) (rest : List Byte) : Prop := s.wants rest <+: s.args.map Arg.type

theorem suitsFirst {t ts} (fits : t :: ts <+: args.map Arg.type) :
    ∃ a rest, args = a :: rest ∧ a.type = t ∧ ts <+: rest.map Arg.type := by
  cases args with
  | nil => cases List.prefix_nil.mp fits
  | cons a rest =>
    obtain ⟨same,fits⟩ := List.cons_prefix_cons.mp fits
    exact ⟨a,rest,rfl,same.symm,fits⟩

theorem suitsLiteral (fits : wants none rest <+: args.map Arg.type) : Suits {s with mode := .literal, args := args} rest := by
  unfold Suits Scan.wants
  dsimp only
  split
  · exact List.nil_prefix
  · exact fits

theorem suitsNumber (signedChar) {ts} (fits : (if cmd.wide then ArgType.long else .int) :: ts <+: args.map Arg.type) :
    ∃ num rest, vaArgNum signedChar cmd args = some (num,rest) ∧ ts <+: rest.map Arg.type := by
  obtain ⟨a,rest,rfl,type,later⟩ := suitsFirst fits
  cases wide : cmd.wide <;> cases a <;> simp [wide,Arg.type] at type
  · exact ⟨_,rest,by simp only [vaArgNum,wide]; rfl,later⟩
  · exact ⟨_,rest,by simp only [vaArgNum,wide]; rfl,later⟩

theorem suitsHandle (wide : cmd.wide = d.cmd.wide)
    (fits : (if d.cmd.wide then ArgType.long else .int) :: wants none rest <+: s.args.map Arg.type) :
    ∃ s' o, handle signedChar cmd base d s = some (s',o) ∧ Suits s' rest := by
  rw [← wide] at fits
  obtain ⟨num,args,popped,fits⟩ := suitsNumber signedChar fits
  exact ⟨_,_,by rw [handle,popped]; rfl,suitsLiteral fits⟩

theorem suitsInt {ts : List ArgType} (fits : .int :: ts <+: args.map Arg.type) : ∃ v rest, args = .int v :: rest ∧ ts <+: rest.map Arg.type := by
  obtain ⟨a,rest,rfl,type,later⟩ := suitsFirst fits
  cases a <;> cases type
  exact ⟨_,rest,rfl,later⟩

theorem suitsWide {wide : Bool} (same : d.cmd.wide = wide) (fits : wants (some wide) rest <+: args.map Arg.type) :
    Suits {s with mode := .directive d, args := args} rest := by
  subst same
  exact fits

theorem reswitchSuits (fits : wants (some d.cmd.wide) (c :: rest) <+: s.args.map Arg.type) :
    ∃ s' o, reswitch signedChar radix c d s = some (s',o) ∧ Suits s' rest := by
  rw [wants] at fits
  cases label : key c <;> simp only [label] at fits <;> simp only [reswitch,label]
  case dot | sharp | plus | minus | h => exact ⟨_,_,rfl,suitsWide rfl fits⟩
  case q | t | z => exact ⟨_,_,rfl,suitsWide (by simp [Cmd.wide]) fits⟩
  case l => exact ⟨_,_,rfl,suitsWide (by cases lflag : d.cmd.lflag <;> simp [Cmd.wide]) fits⟩
  case digit => exact ⟨_,_,rfl,fits⟩
  case zero =>
    split
    · exact ⟨_,_,rfl,fits⟩
    · exact ⟨_,_,rfl,suitsWide rfl fits⟩
  case percent => exact ⟨_,_,rfl,suitsLiteral fits⟩
  case other => exact ⟨_,_,rfl,List.nil_prefix⟩
  case int | octal | radix | unsigned | upperHex | hex | signedHex => exact suitsHandle rfl fits
  case star =>
    obtain ⟨v,args,same,later⟩ := suitsInt fits
    simp only [same]
    split
    · exact ⟨_,_,rfl,suitsWide rfl later⟩
    · split
      · exact ⟨_,_,rfl,suitsWide rfl later⟩
      · exact ⟨_,_,rfl,suitsWide rfl later⟩
  case char =>
    obtain ⟨v,args,same,later⟩ := suitsInt fits
    simp only [same]
    exact ⟨_,_,rfl,suitsLiteral later⟩
  case pointer | string =>
    obtain ⟨a,args,same,type,later⟩ := suitsFirst fits
    cases a <;> cases type
    simp only [same]
    exact ⟨_,_,rfl,suitsLiteral later⟩

theorem digitKey : ∀ c : Byte, byte '0' ≤ c ∧ c ≤ byte '9' → key c = .zero ∨ key c = .digit := by decide

theorem directiveSuits (signedChar radix) (inside : s.literal c = false) (fits : Suits s (c :: rest)) :
    ∃ s' o, directive signedChar radix c s = some (s',o) ∧ Suits s' rest := by
  unfold Suits Scan.wants at fits
  cases mode : s.mode with
  | literal =>
    simp only [Scan.literal,mode,decide_eq_false_iff_not,not_or,not_not] at inside
    simp only [mode,if_neg inside.2,wants,if_pos inside.1] at fits
    simp only [directive,mode]
    exact ⟨_,_,rfl,suitsWide rfl fits⟩
  | directive d =>
    simp only [mode] at fits
    simp only [directive,mode]
    exact reswitchSuits fits
  | digits d n =>
    simp only [mode] at fits
    simp only [directive,mode]
    split
    · rename_i digit
      rw [wants] at fits
      rcases digitKey c digit with label | label <;> simp only [label] at fits <;> exact ⟨_,_,rfl,fits⟩
    · split
      · exact reswitchSuits (s := {s with dwidth := n}) fits
      · exact reswitchSuits (d := {d with width := n, text := d.text ++ [c]}) fits

theorem literalSuits (literal : s.literal c = true) (fits : Suits s (c :: rest)) : Suits s rest := by
  obtain ⟨mode,plain⟩ := literalMode literal
  simp only [Suits,Scan.wants,mode] at fits ⊢
  by_cases discard : s.discard = true
  · simp [discard]
  · rw [if_neg discard] at fits ⊢
    rw [wants,if_neg (plain.resolve_right discard)] at fits
    exact fits

end Arguments

section Returns
variable {signedChar : Bool} {len : BitVec 64} {radix : Nat} {s : State}

theorem fullLast (last : s.out.length % 2^32 = 2^32-1) : full len s.out := by
  have ones : (BitVec.ofNat 32 s.out.length).signExtend 64 = BitVec.allOnes 64 := by
    have all : BitVec.ofNat 32 s.out.length = BitVec.allOnes 32 := BitVec.eq_of_toNat_eq (by rw [BitVec.toNat_ofNat,last]; rfl)
    rw [all]
    decide
  rw [full,ones,BitVec.le_def,BitVec.toNat_allOnes]
  have := (len-1).isLt
  omega

theorem behindReturns (signedChar len radix) (literal : ∀ c, s.scan.literal c = true)
    {m} (near : s.out.length % 2^32 + m = 2^32-1) (beyond : Nat → Byte) :
    ∃ out ret, kvLoop signedChar len radix ((List.range (m+1)).map beyond) s = .returned out ret := by
  induction m generalizing s beyond with
  | zero => exact ⟨_,_,loopStops (literal _) (Or.inr (fullLast near))⟩
  | succ m ih =>
    rw [List.range_succ_eq_map,List.map_cons,List.map_map]
    by_cases stop : beyond 0 = 0 ∨ full len s.out
    · exact ⟨_,_,loopStops (literal _) stop⟩
    · rw [loopStores (literal _) stop]
      refine ih (s := {s with out := s.out ++ [beyond 0]}) literal ?_ _
      rw [List.length_append,List.length_singleton]
      omega

theorem loopReturns (signedChar len radix) {bytes} (fits : Suits s.scan bytes) (beyond : Nat → Byte) :
    ∃ n out ret, kvLoop signedChar len radix (bytes ++ 0 :: (List.range n).map beyond) s = .returned out ret := by
  induction bytes generalizing s with
  | nil =>
    cases literal : s.scan.literal 0 with
    | true => exact ⟨0,_,_,loopStops literal (Or.inl rfl)⟩
    | false =>
      obtain ⟨scan,o,directed,mode,discard⟩ := directiveNul signedChar radix literal
      obtain ⟨out,ret,ran⟩ := behindReturns signedChar len radix (s := ⟨scan,s.out ++ o⟩) (m := 2^32-1-(s.out ++ o).length % 2^32)
        (discardLiteral mode discard) (by dsimp only; omega) beyond
      exact ⟨_,out,ret,(loopDirects literal directed).trans ran⟩
  | cons c bytes ih =>
    cases literal : s.scan.literal c with
    | true =>
      by_cases stop : c = 0 ∨ full len s.out
      · exact ⟨0,_,_,loopStops literal stop⟩
      · obtain ⟨n,out,ret,ran⟩ := ih (s := {s with out := s.out ++ [c]}) (literalSuits literal fits)
        exact ⟨n,out,ret,(loopStores literal stop).trans ran⟩
    | false =>
      obtain ⟨scan,o,directed,later⟩ := directiveSuits signedChar radix literal fits
      obtain ⟨n,out,ret,ran⟩ := ih (s := ⟨scan,s.out ++ o⟩) later
      exact ⟨n,out,ret,(loopDirects literal directed).trans ran⟩

theorem plainReturns (signedChar len radix) {bytes} (plain : byte '%' ∉ bytes) (mode : s.scan.mode = .literal) :
    ∃ out ret, kvLoop signedChar len radix (bytes ++ [0]) s = .returned out ret := by
  have literal : ∀ c, c ≠ byte '%' → s.scan.literal c = true := fun c other => by simp [Scan.literal,mode,other]
  induction bytes generalizing s with
  | nil => exact ⟨_,_,loopStops (literal 0 (by decide)) (Or.inl rfl)⟩
  | cons c bytes ih =>
    have other : c ≠ byte '%' := fun e => plain (e ▸ List.mem_cons_self)
    by_cases stop : c = 0 ∨ full len s.out
    · exact ⟨_,_,loopStops (literal c other) stop⟩
    · rw [List.cons_append,loopStores (literal c other) stop]
      exact ih (s := {s with out := s.out ++ [c]}) (List.not_mem_of_not_mem_cons plain) mode literal

theorem loopBounded {bytes mem out args ret} (nonzero : 0 ∉ bytes) (room : 1 ≤ len.toNat)
    (ran : kvLoop signedChar len radix (bytes ++ 0 :: mem) ⟨{args := args},[]⟩ = .returned out ret) :
    Bounded len out ret ↔ Fits (len.toNat - 1) 0 (pieces signedChar radix {args := args} (bytes ++ [0])) ∧
      tally (len.toNat - 1) 0 (pieces signedChar radix {args := args} (bytes ++ 0 :: mem)) < 2^31 := by
  have counted := loopTally room ran
  obtain ⟨_,rfl⟩ := loopGrows ran
  rw [boundedIff room]
  refine Iff.trans ?_ (and_congr_right fun _ => counted)
  exact and_congr_left fun small => loopFits (s := ⟨{args := args},[]⟩) nonzero room small room ran

end Returns

theorem kvprintfExact {len : BitVec 64} (room : 1 ≤ len.toNat) (signedChar : Bool) (fmt : Option Text) (beyond : Nat → Byte) (radix : BitVec 32)
    {args : List Arg} (asked : wants none (text fmt) <+: args.map Arg.type) :
    ∃ n out ret, (∀ extra, kvprintf signedChar len (fmt.map fun f => f.cells beyond (n+extra)) radix args = .returned out ret) ∧
      (Bounded len out ret ↔ Fits (len.toNat - 1) 0 (pieces signedChar (normalRadix radix) {args := args} (text fmt ++ [0])) ∧
        tally (len.toNat - 1) 0 (pieces signedChar (normalRadix radix) {args := args} (cells fmt beyond n)) < 2^31) := by
  have some : len ≠ 0 := by
    rintro rfl
    exact absurd room (by decide)
  cases fmt with
  | none =>
    obtain ⟨out,ret,ran⟩ := plainReturns signedChar len (normalRadix radix) (s := ⟨{args := args},[]⟩)
      (show byte '%' ∉ nullfmt by decide) rfl
    refine ⟨0,out,ret,fun extra => ?_,loopBounded (by decide) room ran⟩
    simp only [kvprintf,if_neg some]
    exact ran
  | some f =>
    obtain ⟨n,out,ret,ran⟩ := loopReturns signedChar len (normalRadix radix) (s := ⟨{args := args},[]⟩) asked beyond
    refine ⟨n,out,ret,fun extra => ?_,loopBounded f.text room ran⟩
    have longer := loopAppend ((List.range extra).map fun i => beyond (n+i)) ran
    rw [List.append_assoc,List.cons_append] at longer
    simp only [kvprintf,if_neg some,Option.map_some,Option.getD_some,Text.cells,List.range_add,List.map_append,List.map_map]
    exact longer

theorem kvprintfExactNumber : ∃ fmt : Text, fmt.bytes = [byte '%',byte 'd'] ∧ wants none fmt.bytes = [.int] ∧
    ∃ n out ret, (∀ extra, kvprintf true 8 (some (fmt.cells (fun _ => 0) (n+extra))) 10 [.int 12345] = .returned out ret) ∧
      (Bounded 8 out ret ↔ Fits 7 0 (pieces true 10 {args := [.int 12345]} (fmt.bytes ++ [0])) ∧
        tally 7 0 (pieces true 10 {args := [.int 12345]} (fmt.cells (fun _ => 0) n)) < 2^31) :=
  ⟨⟨[byte '%',byte 'd'],by decide⟩,rfl,by decide,kvprintfExact (by decide) true (some _) _ 10 (by decide)⟩

theorem kvprintfOverruns : wants none [byte '%',byte 'd'] = [.int] ∧
    kvprintf true 4 (some [byte '%',byte 'd',0]) 10 [.int 12345] = .returned [byte '1',byte '2',byte '3',byte '4',byte '5'] 3 ∧
    ¬ Bounded 4 [byte '1',byte '2',byte '3',byte '4',byte '5'] 3 :=
  ⟨by decide,rfl,fun bounded => absurd bounded.stored (by decide)⟩

end TskSw.Printf
