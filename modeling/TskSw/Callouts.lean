import TskSw.Errno
import TskSw.KernList
import Mathlib.Data.List.Sort

/-! The callouts of `kern/timer.c`. A tick moves what has expired to a list of its own and
calls the handlers with interrupts enabled, so that a handler can add callouts and another
tick can come inside it. `callout_add` looks at the entry before it disables interrupts. -/
namespace TskSw.Callouts
open CircularLists KernList
open Function (update update_of_ne update_self)

inductive Head where
  | callouts
  | tobeCalled (tick : Nat)
  deriving DecidableEq

structure Timer (ε : Type) where
  links : Links (Node Head ε)
  uptime : BitVec 64
  expire : ε → BitVec 64
  callout : ε → Bool

variable {ε : Type} {q : Head → List ε}

section Functions
variable [DecidableEq ε]

def expireLoop (n : Nat) : Nat → Node Head ε → Timer ε → Option (Timer ε)
  | 0,_,_ => none
  | fuel+1,lp,s =>
    match lp with
    | .head .callouts => some s
    | .head (.tobeCalled _) => none
    | .node cur =>
      let nextEnt := s.links.next lp
      if s.expire cur ≤ s.uptime then
        expireLoop n fuel nextEnt {s with links := listAdd (listDel s.links lp) (.head (.tobeCalled n)) lp}
      else expireLoop n fuel nextEnt s

def insertLoop (entp : ε) : Nat → Node Head ε → Timer ε → Option (Timer ε)
  | 0,_,_ => none
  | fuel+1,lp,s =>
    match lp with
    | .head .callouts => some {s with links := listAdd s.links (.head .callouts) (.node entp)}
    | .head (.tobeCalled _) => none
    | .node cur =>
      if s.expire entp ≤ s.expire cur then some {s with links := listInsertAt s.links lp (.node entp)}
      else insertLoop entp fuel (s.links.next lp) s

def insertEntry (fuel : Nat) (entp : ε) (relExpire : BitVec 64) (s : Timer ε) : Option (Timer ε) :=
  let s := {s with expire := update s.expire entp (s.uptime + relExpire), links := initListNode s.links (.node entp)}
  insertLoop entp fuel (listRefTop s.links (.head .callouts)) s

end Functions

structure Armed where
  id : Nat
  since : Nat
  expire : BitVec 64

structure Call (ε : Type) where
  entry : ε
  armed : Option Armed
  tick : Nat

structure Level (ε : Type) where
  tick : Option Nat
  adding : Option (ε × BitVec 64)

structure State (ε : Type) where
  timer : Timer ε
  top : Level ε
  outer : List (Level ε)
  ret : Int
  ticks : Nat
  accepted : Nat
  armed : ε → Option Armed
  calls : List (Call ε)

inductive Event (ε : Type) where
  | tick
  | check (entp : ε) (relExpire : BitVec 64)
  | insert
  | done

section Machine
variable [DecidableEq ε]

def drain (n : Nat) (s : State ε) : Option (State ε) :=
  if listIsEmpty s.timer.links (.head (.tobeCalled n)) then
    match s.outer with
    | [] => none
    | top :: outer => some {s with top := top, outer := outer}
  else
    match listGetTop s.timer.links (.head (.tobeCalled n)) with
    | (.head _,_) => none
    | (.node cur,links) => some {s with timer := {s.timer with links := links}, top := ⟨some n,none⟩,
                                        armed := update s.armed cur none, calls := ⟨cur,s.armed cur,n⟩ :: s.calls}

def step (fuel : Nat) (e : Event ε) (s : State ε) : Option (State ε) :=
  match e with
  | .tick => do
      let n := s.ticks+1
      let t := {s.timer with uptime := s.timer.uptime + 1, links := initListNode s.timer.links (.head (.tobeCalled n))}
      let t ← expireLoop n fuel (listRefTop t.links (.head .callouts)) t
      drain n {s with timer := t, top := ⟨some n,none⟩, outer := s.top :: s.outer, ticks := n}
  | .check entp relExpire =>
      if s.top.adding.isSome then none
      else if s.timer.callout entp = false ∨ listIsLinked s.timer.links (.node entp) = true then some {s with ret := einval}
      else some {s with top := {s.top with adding := some (entp,relExpire)}}
  | .insert =>
      match s.top.adding with
      | none => none
      | some (entp,relExpire) => do
          let t ← insertEntry fuel entp relExpire s.timer
          some {s with timer := t, top := {s.top with adding := none}, ret := 0, accepted := s.accepted+1,
                       armed := update s.armed entp (some ⟨s.accepted,s.ticks,t.expire entp⟩)}
  | .done =>
      match s.top.tick,s.top.adding with
      | some n,none => drain n s
      | _,_ => none

def start (callout : ε → Bool) : State ε :=
  ⟨⟨unlinked,0,fun _ => 0,callout⟩,⟨none,none⟩,[],0,0,0,fun _ => none,[]⟩

def levels (s : State ε) : List (Level ε) := s.top :: s.outer

-- No `callout_add` of an entry begins while another one of the same entry is behind its check.
def Apart (s : State ε) : Event ε → Prop
  | .check entp _ => ∀ l ∈ levels s, ∀ r, l.adding ≠ some (entp,r)
  | _ => True

inductive Reached (callout : ε → Bool) : State ε → Prop where
  | start : Reached callout (start callout)
  | step (fuel : Nat) (e : Event ε) {s s' : State ε} (before : Reached callout s) (apart : Apart s e) (next : step fuel e s = some s') :
      Reached callout s'

end Machine

def FirstDue (a : Armed) (n : Nat) : Prop :=
  a.since < n ∧ a.expire ≤ BitVec.ofNat 64 n ∧ ∀ i, a.since < i → i < n → BitVec.ofNat 64 i < a.expire

def NotYet (a : Armed) (n : Nat) : Prop := ∀ i, a.since < i → i ≤ n → BitVec.ofNat 64 i < a.expire

section Loops
variable [DecidableEq ε] {t : Timer ε}

theorem expireForest {n fuel a b} (f : Forest t.links q) (split : q .callouts = a ++ b) (enough : b.length < fuel) :
    ∃ links, expireLoop n fuel ((b.map .node).headD (.head .callouts)) t = some {t with links := links} ∧
      Forest links (update (update q .callouts (a ++ b.filter fun e => t.uptime < t.expire e)) (.tobeCalled n)
        (q (.tobeCalled n) ++ b.filter fun e => t.expire e ≤ t.uptime)) := by
  induction b generalizing a t q fuel with
  | nil =>
    obtain ⟨fuel,rfl⟩ : ∃ k, fuel = k+1 := ⟨fuel-1,by simp at enough; omega⟩
    rw [List.append_nil] at split
    refine ⟨t.links,rfl,?_⟩
    rw [List.filter_nil,List.filter_nil,List.append_nil,List.append_nil,← split,Function.update_eq_self,Function.update_eq_self]
    exact f
  | cons e rest ih =>
    obtain ⟨fuel,rfl⟩ : ∃ k, fuel = k+1 := ⟨fuel-1,by simp at enough; omega⟩
    have enough : rest.length < fuel := by simpa using enough
    have next := forestNext f split
    by_cases due : t.expire e ≤ t.uptime
    · have moved := moveForest (l := .tobeCalled n) f split (by simp)
      obtain ⟨links,ran,forest⟩ := ih (t := {t with links := listAdd (listDel t.links (.node e)) (.head (.tobeCalled n)) (.node e)})
        (a := a) moved (by simp) enough
      refine ⟨links,?_,?_⟩
      · simp only [List.map_cons,List.headD_cons,expireLoop,if_pos due,next]
        exact ran
      · have same : ∀ x y : List ε, update (update (update (update q .callouts (a ++ rest))
            (.tobeCalled n) (q (.tobeCalled n) ++ [e])) .callouts x) (.tobeCalled n) y =
            update (update q .callouts x) (.tobeCalled n) y := by
          intro x y
          rw [Function.update_comm (by simp : Head.tobeCalled n ≠ .callouts),Function.update_idem,Function.update_idem]
        have late : ¬ t.uptime < t.expire e := BitVec.not_lt.mpr due
        simpa [same,due,late] using forest
    · obtain ⟨links,ran,forest⟩ := ih (a := a ++ [e]) f (by simpa using split) enough
      refine ⟨links,?_,?_⟩
      · simp only [List.map_cons,List.headD_cons,expireLoop,if_neg due,next]
        exact ran
      · have early : t.uptime < t.expire e := BitVec.not_le.mp due
        simpa [due,early] using forest

theorem insertForest {entp fuel a b} (f : Forest t.links q) (fresh : ∀ k, entp ∉ q k) (split : q .callouts = a ++ b)
    (enough : b.length < fuel) : ∃ links, insertLoop entp fuel ((b.map .node).headD (.head .callouts)) t = some {t with links := links} ∧
      Forest links (update q .callouts (a ++ b.orderedInsert (fun x y => t.expire x ≤ t.expire y) entp)) := by
  induction b generalizing a fuel with
  | nil =>
    obtain ⟨fuel,rfl⟩ : ∃ k, fuel = k+1 := ⟨fuel-1,by simp at enough; omega⟩
    exact ⟨_,rfl,forestInsert f split fresh⟩
  | cons cur rest ih =>
    obtain ⟨fuel,rfl⟩ : ∃ k, fuel = k+1 := ⟨fuel-1,by simp at enough; omega⟩
    have enough : rest.length < fuel := by simpa using enough
    by_cases here : t.expire entp ≤ t.expire cur
    · refine ⟨listInsertAt t.links (.node cur) (.node entp),?_,?_⟩
      · simp only [List.map_cons,List.headD_cons,insertLoop,if_pos here]
      · rw [List.orderedInsert_cons,if_pos here]
        exact forestInsert f split fresh
    · obtain ⟨links,ran,forest⟩ := ih (a := a ++ [cur]) (by simpa using split) enough
      refine ⟨links,?_,?_⟩
      · simp only [List.map_cons,List.headD_cons,insertLoop,if_neg here,forestNext f split]
        exact ran
      · rw [List.orderedInsert_cons,if_neg here]
        simpa using forest

theorem expireMore {n fuel lp r} (ran : expireLoop n fuel lp t = some r) (more : Nat) :
    expireLoop n (fuel+more) lp t = some r := by
  induction fuel generalizing lp t with
  | zero => cases ran
  | succ fuel ih =>
    rw [Nat.succ_add]
    cases lp with
    | head k => cases k <;> exact ran
    | node e =>
      simp only [expireLoop] at ran ⊢
      split
      · rename_i due
        rw [if_pos due] at ran
        exact ih ran
      · rename_i due
        rw [if_neg due] at ran
        exact ih ran

theorem insertMore {entp fuel lp r} (ran : insertLoop entp fuel lp t = some r) (more : Nat) :
    insertLoop entp (fuel+more) lp t = some r := by
  induction fuel generalizing lp with
  | zero => cases ran
  | succ fuel ih =>
    rw [Nat.succ_add]
    cases lp with
    | head k => cases k <;> exact ran
    | node e =>
      simp only [insertLoop] at ran ⊢
      split
      · rename_i here
        rw [if_pos here] at ran
        exact ran
      · rename_i here
        rw [if_neg here] at ran
        exact ih ran

end Loops

structure History {ε : Type} (accepted : Nat) (armed : ε → Option Armed) (calls : List (Call ε)) : Prop where
  onTime : ∀ c ∈ calls, ∃ a, c.armed = some a ∧ FirstDue a c.tick ∧ a.id < accepted
  once : (calls.map fun c => c.armed.map Armed.id).Nodup
  live : ∀ e a, armed e = some a → a.id < accepted ∧ ∀ c ∈ calls, c.armed.map Armed.id ≠ some a.id
  distinct : ∀ e e' a a', armed e = some a → armed e' = some a' → a.id = a'.id → e = e'
  all : ∀ id < accepted, (∃ c ∈ calls, c.armed.map Armed.id = some id) ∨ ∃ e a, armed e = some a ∧ a.id = id

structure Inv {ε : Type} [DecidableEq ε] (s : State ε) (q : Head → List ε) : Prop where
  forest : Forest s.timer.links q
  sorted : (q .callouts).Pairwise fun a b => s.timer.expire a ≤ s.timer.expire b
  uptime : s.timer.uptime = BitVec.ofNat 64 s.ticks
  waiting : ∀ e ∈ q .callouts, ∃ a, s.armed e = some a ∧ a.expire = s.timer.expire e ∧ a.since ≤ s.ticks ∧ NotYet a s.ticks
  due : ∀ n e, e ∈ q (.tobeCalled n) → (∃ l ∈ levels s, l.tick = some n) ∧ ∃ a, s.armed e = some a ∧ FirstDue a n
  placed : ∀ e a, s.armed e = some a → ∃ k, e ∈ q k
  old : ∀ l ∈ levels s, ∀ n, l.tick = some n → n ≤ s.ticks
  tower : ∀ a l b, levels s = a ++ l :: b → (l.tick = none ↔ b = [])
  adding : ∀ l ∈ levels s, ∀ e r, l.adding = some (e,r) → ∀ k, e ∉ q k
  apart : ((levels s).filterMap fun l => l.adding.map Prod.fst).Nodup
  history : History s.accepted s.armed s.calls

section Steps
variable [DecidableEq ε] {s s' : State ε} {n : Nat}

omit [DecidableEq ε] in
theorem historyCall {accepted} {armed : ε → Option Armed} {calls} [DecidableEq ε] (h : History accepted armed calls)
    {e a} (on : armed e = some a) (due : FirstDue a n) :
    History accepted (update armed e none) (⟨e,armed e,n⟩ :: calls) := by
  have rest : ∀ x b, update armed e none x = some b → x ≠ e ∧ armed x = some b := by
    intro x b found
    by_cases same : x = e
    · rw [same,update_self] at found
      cases found
    · rw [update_of_ne same] at found
      exact ⟨same,found⟩
  obtain ⟨small,uncalled⟩ := h.live e a on
  refine ⟨fun c member => ?_,?_,fun x b found => ?_,fun x y b c first second same => ?_,fun id low => ?_⟩
  · rcases List.mem_cons.mp member with rfl | member
    · exact ⟨a,on,due,small⟩
    · exact h.onTime c member
  · rw [List.map_cons,List.nodup_cons]
    refine ⟨fun member => ?_,h.once⟩
    obtain ⟨c,inside,same⟩ := List.mem_map.mp member
    rw [on] at same
    exact uncalled c inside same
  · obtain ⟨other,found⟩ := rest x b found
    refine ⟨(h.live x b found).1,fun c member same => ?_⟩
    rcases List.mem_cons.mp member with rfl | member
    · rw [on] at same
      exact other (h.distinct x e b a found on (Option.some.inj same).symm)
    · exact (h.live x b found).2 c member same
  · exact h.distinct x y b c (rest x b first).2 (rest y c second).2 same
  · rcases h.all id low with ⟨c,member,same⟩ | ⟨x,b,found,same⟩
    · exact Or.inl ⟨c,List.mem_cons_of_mem _ member,same⟩
    · by_cases here : x = e
      · subst here
        rw [on] at found
        cases found
        exact Or.inl ⟨_,List.mem_cons_self,by rw [on]; exact congrArg some same⟩
      · exact Or.inr ⟨x,b,by rw [update_of_ne here]; exact found,same⟩

theorem historyAccept {accepted since} {armed : ε → Option Armed} {calls} (h : History accepted armed calls)
    {e} (free : armed e = none) (expire : BitVec 64) :
    History (accepted+1) (update armed e (some ⟨accepted,since,expire⟩)) calls := by
  have cases : ∀ x b, update armed e (some ⟨accepted,since,expire⟩) x = some b → x = e ∧ b.id = accepted ∨ x ≠ e ∧
    armed x = some b := by
    intro x b found
    by_cases same : x = e
    · rw [same,update_self] at found
      cases found
      exact Or.inl ⟨same,rfl⟩
    · rw [update_of_ne same] at found
      exact Or.inr ⟨same,found⟩
  have older : ∀ c ∈ calls, c.armed.map Armed.id ≠ some accepted := by
    intro c member same
    obtain ⟨a,on,_,small⟩ := h.onTime c member
    rw [on] at same
    exact absurd (Option.some.inj same) (by omega)
  refine ⟨fun c member => ?_,h.once,fun x b found => ?_,fun x y b c first second same => ?_,fun id low => ?_⟩
  · obtain ⟨a,on,due,small⟩ := h.onTime c member
    exact ⟨a,on,due,by omega⟩
  · rcases cases x b found with ⟨_,id⟩ | ⟨_,found⟩
    · rw [id]
      exact ⟨by omega,older⟩
    · obtain ⟨small,uncalled⟩ := h.live x b found
      exact ⟨by omega,uncalled⟩
  · rcases cases x b first with ⟨one,id⟩ | ⟨_,one⟩ <;> rcases cases y c second with ⟨other,id'⟩ | ⟨_,other⟩
    · rw [one,other]
    · have := (h.live y c other).1
      omega
    · have := (h.live x b one).1
      omega
    · exact h.distinct x y b c one other same
  · by_cases new : id = accepted
    · exact Or.inr ⟨e,_,update_self ..,new.symm⟩
    · rcases h.all id (by omega) with called | ⟨x,b,found,same⟩
      · exact Or.inl called
      · refine Or.inr ⟨x,b,?_,same⟩
        rw [update_of_ne]
        · exact found
        · rintro rfl
          rw [free] at found
          cases found

def expired (now : BitVec 64) (expire : ε → BitVec 64) (n : Nat) (q : Head → List ε) : Head → List ε :=
  update (update q .callouts ((q .callouts).filter fun e => now < expire e)) (.tobeCalled n)
    ((q .callouts).filter fun e => expire e ≤ now)

omit [DecidableEq ε] in
theorem expiredWithin {now expire k x} (member : x ∈ expired now expire n q k) : ∃ j, x ∈ q j := by
  unfold expired at member
  by_cases here : k = .tobeCalled n
  · subst here
    rw [update_self] at member
    exact ⟨_,List.mem_of_mem_filter member⟩
  · rw [update_of_ne here] at member
    by_cases call : k = .callouts
    · subst call
      rw [update_self] at member
      exact ⟨_,List.mem_of_mem_filter member⟩
    · rw [update_of_ne call] at member
      exact ⟨k,member⟩

omit [DecidableEq ε] in
theorem expiredPlaced {now expire k x} (new : q (.tobeCalled n) = []) (inside : x ∈ q k) :
    ∃ j, x ∈ expired now expire n q j := by
  by_cases call : k = .callouts
  · subst call
    by_cases due : expire x ≤ now
    · exact ⟨.tobeCalled n,by simpa [expired] using ⟨inside,due⟩⟩
    · exact ⟨.callouts,by simpa [expired] using ⟨inside,BitVec.not_le.mp due⟩⟩
  · have other : k ≠ .tobeCalled n := by
      rintro rfl
      rw [new] at inside
      cases inside
    exact ⟨k,by simpa [expired,other,call] using inside⟩

theorem expiredInv {links} (h : Inv s q) (new : q (.tobeCalled (s.ticks+1)) = [])
    (forest : Forest links (expired (s.timer.uptime + 1) s.timer.expire (s.ticks+1) q)) :
    Inv {s with timer := {s.timer with uptime := s.timer.uptime + 1, links := links}, top := ⟨some (s.ticks+1),none⟩, outer := s.top :: s.outer,
                ticks := s.ticks+1} (expired (s.timer.uptime + 1) s.timer.expire (s.ticks+1) q) := by
  have clock : s.timer.uptime + 1 = BitVec.ofNat 64 (s.ticks+1) := by
    rw [h.uptime,BitVec.ofNat_add]
    rfl
  refine ⟨forest,?_,clock,fun e member => ?_,fun m e member => ?_,fun e a on => ?_,fun l member n at' => ?_,fun a l b split => ?_,
    fun l member e r adds k inside => ?_,h.apart,h.history⟩
  · simpa [expired] using h.sorted.sublist List.filter_sublist
  · have member : e ∈ q .callouts ∧ s.timer.uptime + 1 < s.timer.expire e := by simpa [expired] using member
    obtain ⟨a,on,same,since,notYet⟩ := h.waiting e member.1
    refine ⟨a,on,same,Nat.le_succ_of_le since,fun i after upto => ?_⟩
    rcases Nat.lt_or_eq_of_le upto with less | rfl
    · exact notYet i after (Nat.le_of_lt_succ less)
    · rw [same,← clock]
      exact member.2
  · by_cases here : m = s.ticks+1
    · subst here
      have member : e ∈ q .callouts ∧ s.timer.expire e ≤ s.timer.uptime + 1 := by simpa [expired] using member
      obtain ⟨a,on,same,since,notYet⟩ := h.waiting e member.1
      refine ⟨⟨_,List.mem_cons_self,rfl⟩,a,on,Nat.lt_succ_of_le since,?_,fun i after before => notYet i after (Nat.le_of_lt_succ before)⟩
      rw [same,← clock]
      exact member.2
    · have member : e ∈ q (.tobeCalled m) := by simpa [expired,here] using member
      obtain ⟨⟨l,inside,at'⟩,due⟩ := h.due m e member
      exact ⟨⟨l,List.mem_cons_of_mem _ inside,at'⟩,due⟩
  · obtain ⟨k,inside⟩ := h.placed e a on
    exact expiredPlaced new inside
  · rcases List.mem_cons.mp member with rfl | inside
    · cases at'
      exact Nat.le_refl _
    · exact Nat.le_succ_of_le (h.old l inside n at')
  · cases a with
    | nil =>
      cases split
      simp
    | cons x a => exact h.tower a l b (List.cons.inj split).2
  · rcases List.mem_cons.mp member with rfl | outside
    · cases adds
    · obtain ⟨j,found⟩ := expiredWithin inside
      exact h.adding l outside e r adds j found

theorem ticking (h : Inv s q) : ∃ t q', (∀ fuel, (q .callouts).length < fuel →
      expireLoop (s.ticks+1) fuel (listRefTop (initListNode s.timer.links (.head (.tobeCalled (s.ticks+1)))) (.head .callouts))
        {s.timer with uptime := s.timer.uptime + 1, links := initListNode s.timer.links (.head (.tobeCalled (s.ticks+1)))} = some t) ∧
    Inv {s with timer := t, top := ⟨some (s.ticks+1),none⟩, outer := s.top :: s.outer, ticks := s.ticks+1} q' := by
  have new : q (.tobeCalled (s.ticks+1)) = [] := by
    refine List.eq_nil_iff_forall_not_mem.mpr fun e member => ?_
    obtain ⟨⟨l,inside,at'⟩,_⟩ := h.due _ e member
    have := h.old l inside _ at'
    omega
  have init : initListNode s.timer.links (.head (.tobeCalled (s.ticks+1))) = s.timer.links := isolateAlone ((forestEmpty h.forest).mpr new)
  obtain ⟨links,ran,forest⟩ := expireForest (n := s.ticks+1) (t := {s.timer with uptime := s.timer.uptime + 1}) (a := []) h.forest rfl
    (Nat.lt_succ_self _)
  rw [new,List.nil_append,List.nil_append] at forest
  refine ⟨{s.timer with uptime := s.timer.uptime + 1, links := links},_,fun fuel enough => ?_,expiredInv h new forest⟩
  obtain ⟨more,rfl⟩ := Nat.exists_eq_add_of_le (Nat.succ_le_of_lt enough)
  rw [init,listRefTop,forestFirst h.forest]
  exact expireMore ran more

theorem leaveInv {top rest} (h : Inv s q) (active : s.top.tick = some n) (free : s.top.adding = none)
    (outer : s.outer = top :: rest) (list : q (.tobeCalled n) = []) : Inv {s with top := top, outer := rest} q := by
  have inner : ∀ l, l ∈ levels {s with top := top, outer := rest} → l ∈ levels s := fun l member => by
    rw [levels,outer]
    exact List.mem_cons_of_mem _ member
  refine ⟨h.forest,h.sorted,h.uptime,h.waiting,fun m e member => ?_,h.placed,fun l member => h.old l (inner l member),
    fun a l b split => h.tower (s.top :: a) l b (by rw [levels,outer]; exact congrArg _ split),
    fun l member => h.adding l (inner l member),?_,h.history⟩
  · obtain ⟨⟨l,inside,at'⟩,due⟩ := h.due m e member
    refine ⟨⟨l,?_,at'⟩,due⟩
    rw [levels,outer] at inside
    rcases List.mem_cons.mp inside with rfl | inside
    · rw [active] at at'
      cases at'
      rw [list] at member
      cases member
    · exact inside
  · have apart := h.apart
    rw [levels,outer,List.filterMap_cons_none (by rw [free]; rfl)] at apart
    exact apart

theorem callInv {e rest links} (h : Inv s q) (list : q (.tobeCalled n) = e :: rest)
    (popped : Forest links (update q (.tobeCalled n) rest)) :
    Inv {s with timer := {s.timer with links := links}, armed := update s.armed e none, calls := ⟨e,s.armed e,n⟩ :: s.calls}
      (update q (.tobeCalled n) rest) := by
  obtain ⟨_,a,on,due⟩ := h.due n e (by rw [list]; exact List.mem_cons_self)
  have still : ∀ x, x ≠ e → update s.armed e none x = s.armed x := fun x other => update_of_ne other ..
  refine ⟨popped,by simpa using h.sorted,h.uptime,fun x member => ?_,fun m x member => ?_,fun x b found => ?_,h.old,h.tower,
    fun l member x r adds k inside => h.adding l member x r adds k ((poppedMem h.forest list).mp inside).1,h.apart,historyCall h.history on due⟩
  · obtain ⟨inside,other⟩ := (poppedMem h.forest list).mp member
    dsimp only
    rw [still x other]
    exact h.waiting x inside
  · obtain ⟨inside,other⟩ := (poppedMem h.forest list).mp member
    dsimp only
    rw [still x other]
    exact h.due m x inside
  · have other : x ≠ e := by
      rintro rfl
      simp at found
    dsimp only at found
    rw [still x other] at found
    obtain ⟨k,inside⟩ := h.placed x b found
    exact ⟨k,(poppedMem h.forest list).mpr ⟨inside,other⟩⟩

theorem drains (h : Inv s q) (active : s.top.tick = some n) (free : s.top.adding = none) :
    ∃ s' q', drain n s = some s' ∧ Inv s' q' ∧
      (s'.calls = s.calls ∨ ∃ e, s'.calls = ⟨e,s.armed e,n⟩ :: s.calls ∧ ∀ k, e ∉ q' k) := by
  cases list : q (.tobeCalled n) with
  | nil =>
    have empty : listIsEmpty s.timer.links (.head (.tobeCalled n)) = true := (isEmptyForest h.forest).mpr list
    cases outer : s.outer with
    | nil =>
      have last := (h.tower [] s.top s.outer rfl).mpr outer
      rw [active] at last
      cases last
    | cons top rest => exact ⟨_,q,by simp only [drain,if_pos empty,outer],leaveInv h active free outer list,Or.inl rfl⟩
  | cons e rest =>
    have full : listIsEmpty s.timer.links (.head (.tobeCalled n)) = false := by
      by_contra empty
      rw [(isEmptyForest h.forest).mp (by simpa using empty)] at list
      cases list
    obtain ⟨top,popped⟩ := getTopForest h.forest list
    have same : s.top = ⟨some n,none⟩ := by rw [← active,← free]
    refine ⟨_,_,?_,callInv h list popped,Or.inr ⟨e,rfl,poppedFresh h.forest list⟩⟩
    simp only [drain,full,Bool.false_eq_true,if_false]
    split
    · rename_i found
      rw [found] at top
      cases top
    · rename_i found
      rw [found] at top
      cases top
      rw [found,← same]

theorem addingInv {adding} (h : Inv s q) (fresh : ∀ e r, adding = some (e,r) → ∀ k, e ∉ q k)
    (nodup : ((adding.map Prod.fst).toList ++ s.outer.filterMap fun l => l.adding.map Prod.fst).Nodup) :
    Inv {s with top := {s.top with adding := adding}} q := by
  have cases : ∀ l, l ∈ levels {s with top := {s.top with adding := adding}} → l = {s.top with adding := adding} ∨ l ∈ levels s :=
    fun l member => (List.mem_cons.mp member).imp id (List.mem_cons_of_mem _)
  refine ⟨h.forest,h.sorted,h.uptime,h.waiting,fun m e member => ?_,h.placed,fun l member n at' => ?_,fun a l b split => ?_,
    fun l member e r adds => ?_,?_,h.history⟩
  · obtain ⟨⟨l,inside,at'⟩,due⟩ := h.due m e member
    rcases List.mem_cons.mp inside with rfl | inside
    · exact ⟨⟨_,List.mem_cons_self,at'⟩,due⟩
    · exact ⟨⟨l,List.mem_cons_of_mem _ inside,at'⟩,due⟩
  · rcases cases l member with rfl | inside
    · exact h.old s.top List.mem_cons_self n at'
    · exact h.old l inside n at'
  · cases a with
    | nil =>
      cases split
      exact h.tower [] s.top s.outer rfl
    | cons x a => exact h.tower (s.top :: a) l b (congrArg _ (List.cons.inj split).2)
  · rcases cases l member with rfl | inside
    · exact fresh e r adds
    · exact h.adding l inside e r adds
  · cases adding with
    | none => exact nodup
    | some x => exact nodup

theorem checkInv {entp relExpire} (h : Inv s q) (apart : ∀ l ∈ levels s, ∀ r, l.adding ≠ some (entp,r))
    (idle : s.top.adding = none) (unlinked : listIsLinked s.timer.links (.node entp) = false) :
    Inv {s with top := {s.top with adding := some (entp,relExpire)}} q := by
  refine addingInv h (fun e r same => ?_) (List.nodup_cons.mpr ⟨fun member => ?_,?_⟩)
  · cases same
    exact (isLinkedForest h.forest).mp unlinked
  · obtain ⟨l,inside,found⟩ := List.mem_filterMap.mp member
    obtain ⟨⟨e,r⟩,adds,rfl⟩ := Option.map_eq_some_iff.mp found
    exact apart l (List.mem_cons_of_mem _ inside) r adds
  · have before := h.apart
    rwa [levels,List.filterMap_cons_none (by rw [idle]; rfl)] at before

omit [DecidableEq ε] in
theorem sortedInsert {l : List ε} {f : ε → BitVec 64} (sorted : l.Pairwise fun a b => f a ≤ f b) (e : ε) :
    (l.orderedInsert (fun a b => f a ≤ f b) e).Pairwise fun a b => f a ≤ f b := by
  induction l with
  | nil => exact List.pairwise_singleton _ _
  | cons x rest ih =>
    obtain ⟨first,sorted⟩ := List.pairwise_cons.mp sorted
    rw [List.orderedInsert_cons]
    split
    · rename_i less
      refine List.pairwise_cons.mpr ⟨fun y member => ?_,List.pairwise_cons.mpr ⟨first,sorted⟩⟩
      rcases List.mem_cons.mp member with rfl | member
      · exact less
      · exact BitVec.le_trans less (first y member)
    · rename_i more
      refine List.pairwise_cons.mpr ⟨fun y member => ?_,ih sorted⟩
      rcases (List.mem_orderedInsert _).mp member with rfl | member
      · exact BitVec.le_of_lt (BitVec.not_le.mp more)
      · exact first y member

theorem unarmed {e} (h : Inv s q) (fresh : ∀ k, e ∉ q k) : s.armed e = none := by
  cases on : s.armed e with
  | none => rfl
  | some a =>
    obtain ⟨k,member⟩ := h.placed e a on
    exact absurd member (fresh k)

omit [DecidableEq ε] in
theorem insertedMem {f : ε → BitVec 64} {e x : ε} {k : Head} (fresh : ∀ k, e ∉ q k)
    (member : x ∈ update q .callouts ([] ++ (q .callouts).orderedInsert (fun a b => f a ≤ f b) e) k) :
    x = e ∧ k = .callouts ∨ x ≠ e ∧ x ∈ q k := by
  have other : ∀ k, x ∈ q k → x ≠ e := fun k inside same => fresh k (same ▸ inside)
  by_cases call : k = .callouts
  · subst call
    rw [update_self,List.nil_append,List.mem_orderedInsert] at member
    exact member.imp (⟨·,rfl⟩) fun inside => ⟨other _ inside,inside⟩
  · rw [update_of_ne call] at member
    exact Or.inr ⟨other k member,member⟩

theorem inserting {entp : ε} {relExpire : BitVec 64} (h : Inv s q) (fresh : ∀ k, entp ∉ q k)
    (apart : ∀ l ∈ levels s, ∀ r, l.adding ≠ some (entp,r)) :
    ∃ t q', (∀ fuel, (q .callouts).length < fuel → insertEntry fuel entp relExpire s.timer = some t) ∧
      Inv {s with timer := t, ret := 0, accepted := s.accepted+1,
                  armed := update s.armed entp (some ⟨s.accepted,s.ticks,t.expire entp⟩)} q' := by
  have init : initListNode s.timer.links (.node entp) = s.timer.links := isolateAlone ((forestAlone h.forest).mpr fresh)
  obtain ⟨links,ran,forest⟩ := insertForest (t := {s.timer with expire := update s.timer.expire entp (s.timer.uptime + relExpire)})
    (a := []) h.forest fresh rfl (Nat.lt_succ_self _)
  have other : ∀ k x, x ∈ q k → x ≠ entp := fun k x member same => fresh k (same ▸ member)
  have sorted : (q .callouts).Pairwise fun a b => update s.timer.expire entp (s.timer.uptime + relExpire) a ≤
      update s.timer.expire entp (s.timer.uptime + relExpire) b := by
    refine h.sorted.imp_of_mem fun {a b} first second less => ?_
    rwa [update_of_ne (other _ a first),update_of_ne (other _ b second)]
  refine ⟨{s.timer with expire := update s.timer.expire entp (s.timer.uptime + relExpire), links := links},_,fun fuel enough => ?_,
    forest,?_,h.uptime,fun x member => ?_,fun m x member => ?_,fun x a on => ?_,h.old,h.tower,fun l member x r adds k inside => ?_,h.apart,
    historyAccept h.history (unarmed h fresh) _⟩
  · obtain ⟨more,rfl⟩ := Nat.exists_eq_add_of_le (Nat.succ_le_of_lt enough)
    rw [insertEntry]
    dsimp only
    rw [init,listRefTop,forestFirst h.forest]
    exact insertMore ran more
  · simpa using sortedInsert sorted entp
  · rcases insertedMem fresh member with ⟨rfl,_⟩ | ⟨away,inside⟩
    · exact ⟨_,update_self ..,rfl,Nat.le_refl _,fun i after upto => absurd after (Nat.not_lt.mpr upto)⟩
    · dsimp only
      rw [update_of_ne away,update_of_ne away]
      exact h.waiting x inside
  · rcases insertedMem fresh member with ⟨_,absurd⟩ | ⟨away,inside⟩
    · cases absurd
    · dsimp only
      rw [update_of_ne away]
      exact h.due m x inside
  · by_cases same : x = entp
    · exact ⟨.callouts,by simp [same]⟩
    · dsimp only at on
      rw [update_of_ne same] at on
      obtain ⟨k,inside⟩ := h.placed x a on
      refine ⟨k,?_⟩
      by_cases call : k = .callouts
      · subst call
        simp [inside]
      · simpa [call] using inside
  · rcases insertedMem fresh inside with ⟨rfl,_⟩ | ⟨_,inside⟩
    · exact apart l member r adds
    · exact h.adding l member x r adds k inside

theorem inserts {entp relExpire} (h : Inv s q) (adds : s.top.adding = some (entp,relExpire)) :
    ∃ t q', (∀ fuel, (q .callouts).length < fuel → insertEntry fuel entp relExpire s.timer = some t) ∧
      Inv {s with timer := t, top := {s.top with adding := none}, ret := 0, accepted := s.accepted+1,
                  armed := update s.armed entp (some ⟨s.accepted,s.ticks,t.expire entp⟩)} q' := by
  have fresh := h.adding s.top List.mem_cons_self entp relExpire adds
  have nodup := h.apart
  rw [levels,List.filterMap_cons_some (b := entp) (by rw [adds]; rfl),List.nodup_cons] at nodup
  have idle : Inv {s with top := {s.top with adding := none}} q := addingInv h (fun _ _ absurd => by cases absurd) nodup.2
  refine inserting idle fresh fun l member r found => ?_
  rcases List.mem_cons.mp member with rfl | member
  · cases found
  · exact nodup.1 (List.mem_filterMap.mpr ⟨l,member,by rw [found]; rfl⟩)

theorem stepInv {fuel e} (h : Inv s q) (apart : Apart s e) (next : step fuel e s = some s') :
    ∃ q', Inv s' q' ∧ (s'.calls = s.calls ∨ ∃ x n, s'.calls = ⟨x,s.armed x,n⟩ :: s.calls ∧ ∀ k, x ∉ q' k) := by
  cases e with
  | tick =>
    obtain ⟨t,ran,next⟩ := Option.bind_eq_some_iff.mp next
    obtain ⟨t',q₁,loop,moved⟩ := ticking h
    have same : t = t' := by
      have one := expireMore ran ((q .callouts).length+1)
      have other := loop (fuel + ((q .callouts).length+1)) (by omega)
      exact Option.some.inj (one.symm.trans other)
    subst same
    obtain ⟨s₁,q',drained,inv,called⟩ := drains moved rfl rfl
    cases drained.symm.trans next
    exact ⟨q',inv,called.imp id fun ⟨x,found⟩ => ⟨x,_,found⟩⟩
  | check entp relExpire =>
    simp only [step] at next
    split at next <;> try contradiction
    rename_i idle
    split at next
    · cases next
      exact ⟨q,⟨h.forest,h.sorted,h.uptime,h.waiting,h.due,h.placed,h.old,h.tower,h.adding,h.apart,h.history⟩,Or.inl rfl⟩
    · rename_i free
      cases next
      exact ⟨q,checkInv h apart (by simpa using idle) (by simpa using (not_or.mp free).2),Or.inl rfl⟩
  | insert =>
    simp only [step] at next
    split at next <;> try contradiction
    rename_i entp relExpire adds
    obtain ⟨t,ran,next⟩ := Option.bind_eq_some_iff.mp next
    cases next
    obtain ⟨t',q',loop,inv⟩ := inserts h adds
    have same : t = t' := by
      have one := insertMore ran ((q .callouts).length+1)
      have other := loop (fuel + ((q .callouts).length+1)) (by omega)
      exact Option.some.inj (one.symm.trans other)
    subst same
    exact ⟨q',inv,Or.inl rfl⟩
  | done =>
    simp only [step] at next
    split at next <;> try contradiction
    rename_i n active idle
    obtain ⟨s₁,q',drained,inv,called⟩ := drains h active idle
    cases drained.symm.trans next
    exact ⟨q',inv,called.imp id fun ⟨x,found⟩ => ⟨x,_,found⟩⟩

theorem startInv (callout : ε → Bool) : Inv (start callout) fun _ => [] := by
  refine ⟨forestStart,List.Pairwise.nil,rfl,fun e member => absurd member List.not_mem_nil,fun n e member => absurd member List.not_mem_nil,
    fun e a on => (by cases on),fun l member n at' => ?_,fun a l b split => ?_,fun l member e r adds => ?_,?_,?_⟩
  · rw [List.mem_singleton.mp member] at at'
    cases at'
  · have same : a = [] ∧ l = ⟨none,none⟩ ∧ b = [] := by
      cases a with
      | nil =>
        cases split
        exact ⟨rfl,rfl,rfl⟩
      | cons x a => simp [levels,start] at split
    simp [same]
  · rw [List.mem_singleton.mp member] at adds
    cases adds
  · exact List.nodup_nil
  · exact ⟨fun c member => absurd member List.not_mem_nil,List.nodup_nil,fun e a on => (by cases on),fun e _ a _ on => (by cases on),
      fun id low => absurd low (Nat.not_lt_zero id)⟩

theorem reachedInv {callout} (run : Reached callout s) : ∃ q, Inv s q := by
  induction run with
  | start => exact ⟨_,startInv callout⟩
  | step _ _ _ apart next ih =>
    obtain ⟨q,inv⟩ := ih
    obtain ⟨q',inv',_⟩ := stepInv inv apart next
    exact ⟨q',inv'⟩

theorem calloutsOnTime {callout : ε → Bool} (run : Reached callout s) :
    (∃ l : List ε, Ring s.timer.links (.head .callouts) (l.map .node) ∧ l.Pairwise fun a b => s.timer.expire a ≤ s.timer.expire b) ∧
    History s.accepted s.armed s.calls ∧
    (∀ e a, s.armed e = some a → NotYet a s.ticks ∨ ∃ n, FirstDue a n ∧ ∃ l ∈ levels s, l.tick = some n) ∧
    (∀ fuel e s', Apart s e → step fuel e s = some s' → s'.calls = s.calls ∨
      ∃ c, s'.calls = c :: s.calls ∧ listIsLinked s'.timer.links (.node c.entry) = false) ∧
    (∀ fuel e r, s.top.adding = none → listIsLinked s.timer.links (.node e) = true → step fuel (.check e r) s = some {s with ret := einval}) ∧
    (∃ fuel s', step fuel .tick s = some s') ∧
    (s.top.adding ≠ none → ∃ fuel s', step fuel .insert s = some s') ∧
    (s.top.adding = none → s.top.tick ≠ none → ∃ fuel s', step fuel .done s = some s') := by
  obtain ⟨q,h⟩ := reachedInv run
  refine ⟨⟨q .callouts,h.forest.ring .callouts,h.sorted⟩,h.history,fun e a on => ?_,fun fuel e s' apart next => ?_,
    fun fuel e r idle linked => ?_,?_,fun adds => ?_,fun idle active => ?_⟩
  · obtain ⟨k,member⟩ := h.placed e a on
    cases k with
    | callouts =>
      obtain ⟨b,on',_,_,notYet⟩ := h.waiting e member
      cases on.symm.trans on'
      exact Or.inl notYet
    | tobeCalled n =>
      obtain ⟨level,b,on',due⟩ := h.due n e member
      cases on.symm.trans on'
      exact Or.inr ⟨n,due,level⟩
  · obtain ⟨q',inv,same | ⟨x,n,found,out⟩⟩ := stepInv h apart next
    · exact Or.inl same
    · exact Or.inr ⟨_,found,(isLinkedForest inv.forest).mpr out⟩
  · simp only [step,idle,linked]
    simp
  · obtain ⟨t,q₁,loop,moved⟩ := ticking h
    obtain ⟨s',_,drained,_⟩ := drains moved rfl rfl
    exact ⟨_,s',Option.bind_eq_some_iff.mpr ⟨t,loop _ (Nat.lt_succ_self _),drained⟩⟩
  · cases top : s.top.adding with
    | none => exact absurd top adds
    | some x =>
      obtain ⟨entp,relExpire⟩ := x
      obtain ⟨t,_,loop,_⟩ := inserts h top
      have ran := loop _ (Nat.lt_succ_self _)
      refine ⟨(q .callouts).length+1,
        {s with timer := t, top := {s.top with adding := none}, ret := 0, accepted := s.accepted+1,
                armed := update s.armed entp (some ⟨s.accepted,s.ticks,t.expire entp⟩)},?_⟩
      simp only [step,top,ran]
      rfl
  · cases tick : s.top.tick with
    | none => exact absurd tick active
    | some n =>
      obtain ⟨s',_,drained,_⟩ := drains h tick idle
      exact ⟨0,s',by simp only [step,tick,idle]; exact drained⟩

end Steps

section Examples

def runAll (es : List (Event Nat)) (s : State Nat) : Option (State Nat) := es.foldlM (fun s e => step 5 e s) s

theorem runAllReached {es s s'} (run : Reached (fun _ => true) s) (plain : ∀ e ∈ es, ∀ x r, e ≠ .check x r)
    (ran : runAll es s = some s') : Reached (fun _ => true) s' := by
  induction es generalizing s with
  | nil =>
    cases ran
    exact run
  | cons e rest ih =>
    obtain ⟨t,one,others⟩ := Option.bind_eq_some_iff.mp ran
    refine ih (.step 5 e run ?_ one) (fun x member => plain x (List.mem_cons_of_mem _ member)) others
    cases e with
    | check x r => exact absurd rfl (plain _ List.mem_cons_self x r)
    | _ => trivial

theorem calledAtSecondTick : ∃ s, Reached (fun _ => true) s ∧ s.calls.map (fun c => (c.entry,c.tick)) = [(7,2)] ∧
    listIsLinked s.timer.links (.node 7) = false ∧ ∃ fuel s', step fuel .tick s = some s' := by
  have first : Apart (start fun _ => true) (.check 7 2) := fun l member r adds => by
    rw [List.mem_singleton.mp member] at adds
    cases adds
  have checked : Reached (fun _ => true) _ := .step 5 (.check 7 2) .start first rfl
  have seen : (runAll [.insert,.tick,.tick] {start fun _ => true with top := ⟨none,some (7,2)⟩}).map
      (fun s => (s.calls.map (fun c => (c.entry,c.tick)),listIsLinked s.timer.links (.node 7))) = some ([(7,2)],false) := by decide +kernel
  obtain ⟨s,ran,facts⟩ := Option.map_eq_some_iff.mp seen
  obtain ⟨calls,unlinked⟩ := Prod.mk.inj facts
  have run := runAllReached checked (by simp) ran
  exact ⟨s,run,calls,unlinked,(calloutsOnTime run).2.2.2.2.2.1⟩

-- The handler of entry 0 is about to add entry 1 when a tick calls the handler of entry 2, which adds it.
def addedTwice : List (Event Nat) :=
  [.check 0 1,.insert,.check 2 2,.insert,.tick,.check 1 5,.tick,.check 1 5,.insert,.done,.insert]

theorem stuckLoop {n t} (ring : t.links.next (.node 1) = .node 1) (early : ¬ t.expire 1 ≤ t.uptime) (fuel : Nat) :
    expireLoop n fuel (.node 1) t = none := by
  induction fuel with
  | zero => rfl
  | succ fuel ih => simp only [expireLoop,if_neg early,ring,ih]

theorem tickNeverEnds : ∃ s, runAll addedTwice (start fun _ => true) = some s ∧ s.accepted = 4 ∧
    s.calls.map (fun c => c.entry) = [2,0] ∧ ∀ fuel, step fuel .tick s = none := by
  have seen : (runAll addedTwice (start fun _ => true)).map (fun s => (s.accepted,s.calls.map (fun c => c.entry),
      decide (s.timer.links.next (.head .callouts) = .node 1 ∧ s.timer.links.next (.node 1) = .node 1 ∧
        ¬ s.timer.expire 1 ≤ s.timer.uptime+1))) =
      some (4,[2,0],true) := by decide +kernel
  obtain ⟨s,ran,facts⟩ := Option.map_eq_some_iff.mp seen
  simp only [Prod.mk.injEq,decide_eq_true_iff] at facts
  obtain ⟨accepted,calls,top,ring,early⟩ := facts
  refine ⟨s,ran,accepted,calls,fun fuel => Option.bind_eq_none_iff.mpr fun t loop => ?_⟩
  have keepTop : (initListNode s.timer.links (.head (.tobeCalled (s.ticks+1)))).next (.head .callouts) = .node 1 := by
    simpa [initListNode,Links.isolate] using top
  have keepRing : (initListNode s.timer.links (.head (.tobeCalled (s.ticks+1)))).next (.node 1) = .node 1 := by
    simpa [initListNode,Links.isolate] using ring
  rw [listRefTop,keepTop] at loop
  have stuck := stuckLoop (n := s.ticks+1)
    (t := {s.timer with uptime := s.timer.uptime + 1, links := initListNode s.timer.links (.head (.tobeCalled (s.ticks+1)))}) keepRing early fuel
  cases stuck.symm.trans loop

end Examples

end TskSw.Callouts
