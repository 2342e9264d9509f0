import Mathlib.Logic.Function.Basic
import Mathlib.Data.List.Nodup

/-! Circular lists in memory: every node has a next and a previous node, and a list is the
ring through its head. Nodes that are in no list point to themselves. -/
namespace TskSw.CircularLists

@[ext] structure Links (α : Type) where
  next : α → α
  prev : α → α

variable {α : Type} {h p x : α} {l : List α} {m' : Links α}

section Memory
variable [DecidableEq α]

def Links.setNext (m : Links α) (a b : α) : Links α := {m with next := Function.update m.next a b}
def Links.setPrev (m : Links α) (a b : α) : Links α := {m with prev := Function.update m.prev a b}

def Links.alone (m : Links α) (n : α) : Prop := m.prev n = n ∧ m.next n = n

instance (m : Links α) (n : α) : Decidable (m.alone n) := inferInstanceAs (Decidable (_ ∧ _))

def Links.isolate (m : Links α) (n : α) : Links α := (m.setPrev n n).setNext n n

def Links.unlink (m : Links α) (n : α) : Links α :=
  let m := m.setPrev (m.next n) (m.prev n)
  let m := m.setNext (m.prev n) (m.next n)
  m.isolate n

def Links.insertBefore (m : Links α) (pos n : α) : Links α :=
  let m := m.setNext n pos
  let m := m.setPrev n (m.prev pos)
  let m := m.setNext (m.prev pos) n
  m.setPrev pos n

def Links.insertAfter (m : Links α) (pos n : α) : Links α :=
  let m := m.setNext n (m.next pos)
  let m := m.setPrev n pos
  let m := m.setPrev (m.next pos) n
  m.setNext pos n

def visit (next : α → α) (last : α) : Nat → α → Option (List α)
  | 0,_ => none
  | fuel+1,x => if x = last then some [] else (visit next last fuel (next x)).map (x :: ·)

@[simp] theorem nextSetNext (m : Links α) (a b x : α) : (m.setNext a b).next x = if x = a then b else m.next x := by
  simp [Links.setNext,Function.update_apply]

@[simp] theorem prevSetNext (m : Links α) (a b : α) : (m.setNext a b).prev = m.prev := rfl

@[simp] theorem prevSetPrev (m : Links α) (a b x : α) : (m.setPrev a b).prev x = if x = a then b else m.prev x := by
  simp [Links.setPrev,Function.update_apply]

@[simp] theorem nextSetPrev (m : Links α) (a b : α) : (m.setPrev a b).next = m.next := rfl

theorem unlinkAlone {m : Links α} {n} (h : m.alone n) : m.unlink n = m := by
  obtain ⟨next,prev⟩ := m
  obtain ⟨first,second⟩ := h
  dsimp only at first second
  simp [Links.unlink,Links.isolate,Links.setNext,Links.setPrev,first,second]

theorem unlinkNext (m : Links α) (n x : α) :
    (m.unlink n).next x = if x = n then n else if x = m.prev n then m.next n else m.next x := by
  simp [Links.unlink,Links.isolate]

theorem unlinkPrev (m : Links α) (n x : α) :
    (m.unlink n).prev x = if x = n then n else if x = m.next n then m.prev n else m.prev x := by
  simp [Links.unlink,Links.isolate]

theorem insertNext (m : Links α) (pos n x : α) :
    (m.insertBefore pos n).next x = if x = m.prev pos then n else if x = n then pos else m.next x := by
  simp [Links.insertBefore]

theorem insertPrev (m : Links α) (pos n x : α) :
    (m.insertBefore pos n).prev x = if x = pos then n else if x = n then m.prev pos else m.prev x := by
  simp [Links.insertBefore]

theorem insertAfterBefore {m : Links α} {pos n} (back : m.prev (m.next pos) = pos) (apart : n ≠ pos) :
    m.insertAfter pos n = m.insertBefore (m.next pos) n := by
  refine Links.ext (funext fun x => ?_) (funext fun x => ?_)
  · rw [insertNext,back]
    simp [Links.insertAfter]
  · rw [insertPrev,back]
    simp [Links.insertAfter,apart.symm]

end Memory

section Rings

def Seg (m : Links α) : α → List α → α → Prop
  | p,[],q => m.next p = q ∧ m.prev q = p
  | p,x :: rest,q => m.next p = x ∧ m.prev x = p ∧ Seg m x rest q

theorem segAppend {m : Links α} {p x q a b} :
    Seg m p (a ++ x :: b) q ↔ Seg m p a x ∧ Seg m x b q := by
  induction a generalizing p with
  | nil => simp [Seg,and_assoc]
  | cons y rest ih => simp [Seg,ih,and_assoc]

theorem segAgree {m : Links α} {q : α} (h : Seg m p l q) (next : ∀ x ∈ p :: l, m'.next x = m.next x)
    (prev : ∀ x ∈ l ++ [q], m'.prev x = m.prev x) : Seg m' p l q := by
  induction l generalizing p with
  | nil => exact ⟨(next p (by simp)).trans h.1,(prev q (by simp)).trans h.2⟩
  | cons y rest ih =>
    refine ⟨(next p (by simp)).trans h.1,(prev y (by simp)).trans h.2.1,ih h.2.2 ?_ ?_⟩
    · exact fun x member => next x (List.mem_cons_of_mem _ member)
    · exact fun x member => prev x (List.mem_cons_of_mem _ member)

theorem segLast {m : Links α} {q : α} (h : Seg m p l q) : m.prev q ∈ p :: l := by
  induction l generalizing p with
  | nil => simp [h.2]
  | cons y rest ih => exact List.mem_cons_of_mem _ (ih h.2.2)

theorem segRedirect {m : Links α} {q r : α} (h : Seg m p l q) (nodup : (p :: l).Nodup)
    (last : m'.next (m.prev q) = r ∧ m'.prev r = m.prev q)
    (next : ∀ x ∈ p :: l, x ≠ m.prev q → m'.next x = m.next x) (prev : ∀ x ∈ l, m'.prev x = m.prev x) : Seg m' p l r := by
  induction l generalizing p with
  | nil =>
    rw [h.2] at last
    exact last
  | cons y rest ih =>
    obtain ⟨fresh,nodup⟩ := List.nodup_cons.mp nodup
    have other : p ≠ m.prev q := fun e => fresh (e ▸ segLast h.2.2)
    refine ⟨(next p (by simp) other).trans h.1,(prev y (by simp)).trans h.2.1,ih h.2.2 nodup ?_ ?_⟩
    · exact fun x member => next x (List.mem_cons_of_mem _ member)
    · exact fun x member => prev x (List.mem_cons_of_mem _ member)

def Links.flip (m : Links α) : Links α := ⟨m.prev,m.next⟩

theorem segFlip {m : Links α} {p q} (h : Seg m p l q) : Seg m.flip q l.reverse p := by
  induction l generalizing p with
  | nil => exact ⟨h.2,h.1⟩
  | cons x rest ih =>
    rw [List.reverse_cons]
    exact segAppend.mpr ⟨ih h.2.2,h.2.1,h.1⟩

theorem segLinks {m : Links α} {q : α} (h : Seg m p l q) (h' : Seg m' p l q) :
    (∀ x ∈ p :: l, m'.next x = m.next x) ∧ ∀ x ∈ l ++ [q], m'.prev x = m.prev x := by
  induction l generalizing p with
  | nil => simp [h.1,h.2,h'.1,h'.2]
  | cons y rest ih =>
    obtain ⟨next,prev⟩ := ih h.2.2 h'.2.2
    refine ⟨fun x member => ?_,fun x member => ?_⟩
    · rcases List.mem_cons.mp member with rfl | later
      · rw [h.1,h'.1]
      · exact next x later
    · rcases List.mem_cons.mp member with rfl | later
      · rw [h.2.1,h'.2.1]
      · exact prev x later

theorem segVisit [DecidableEq α] {m : Links α} {p q} (h : Seg m p l q) (off : q ∉ l) {fuel} (enough : l.length < fuel) :
    visit m.next q fuel (m.next p) = some l := by
  induction l generalizing p fuel with
  | nil =>
    cases fuel with
    | zero => cases enough
    | succ fuel => simp [visit,h.1]
  | cons x rest ih =>
    cases fuel with
    | zero => cases enough
    | succ fuel =>
      have other : x ≠ q := fun same => off (same ▸ List.mem_cons_self)
      have later := ih h.2.2 (fun member => off (List.mem_cons_of_mem _ member)) (Nat.lt_of_succ_lt_succ enough)
      rw [visit,h.1,if_neg other,later]
      rfl

structure Ring (m : Links α) (h : α) (l : List α) : Prop where
  nodup : (h :: l).Nodup
  seg : Seg m h l h

theorem ringFlip {m : Links α} {h} (r : Ring m h l) : Ring m.flip h l.reverse := by
  obtain ⟨fresh,nodup⟩ := List.nodup_cons.mp r.nodup
  exact ⟨List.nodup_cons.mpr ⟨fun member => fresh (List.mem_reverse.mp member),List.nodup_reverse.mpr nodup⟩,segFlip r.seg⟩

theorem ringLinks {m : Links α} (r : Ring m h l) (r' : Ring m' h l) (member : x ∈ h :: l) :
    m'.next x = m.next x ∧ m'.prev x = m.prev x := by
  obtain ⟨next,prev⟩ := segLinks r.seg r'.seg
  refine ⟨next x member,prev x ?_⟩
  rw [List.mem_append,List.mem_singleton]
  exact (List.mem_cons.mp member).symm

theorem ringEmpty {m : Links α} : Ring m h [] ↔ m.alone h :=
  ⟨fun r => ⟨r.seg.2,r.seg.1⟩,fun r => ⟨by simp,r.2,r.1⟩⟩

theorem ringAgree {m : Links α} (r : Ring m h l) (same : ∀ x ∈ h :: l, m'.next x = m.next x ∧ m'.prev x = m.prev x) : Ring m' h l := by
  refine ⟨r.nodup,segAgree r.seg (fun x member => (same x member).1) fun x member => (same x ?_).2⟩
  rw [List.mem_append,List.mem_singleton] at member
  exact List.mem_cons.mpr member.symm

theorem ringAlone {m : Links α} (r : Ring m h l) : m.alone h ↔ l = [] := by
  constructor
  · intro alone
    cases l with
    | nil => rfl
    | cons x rest =>
      have first := r.seg.1
      rw [alone.2] at first
      exact absurd (first ▸ List.mem_cons_self) (List.nodup_cons.mp r.nodup).1
  · rintro rfl
    exact ringEmpty.mp r

theorem segFirst {m : Links α} {p q} (h : Seg m p l q) : m.next p = l.headD q := by
  cases l with
  | nil => exact h.1
  | cons x rest => exact h.1

theorem ringInside {m : Links α} (r : Ring m h l) (member : x ∈ l) : m.next x ≠ x ∧ m.next x ∈ h :: l := by
  obtain ⟨a,b,rfl⟩ := List.append_of_mem member
  have nodup := r.nodup
  have seg := (segAppend.mp r.seg).2
  cases b with
  | nil =>
    rw [seg.1]
    refine ⟨?_,List.mem_cons_self⟩
    rintro rfl
    simp at nodup
  | cons y rest =>
    rw [seg.1]
    refine ⟨?_,by simp⟩
    rintro rfl
    simp [List.nodup_append] at nodup

theorem ringLinked {m : Links α} {h x l} (r : Ring m h l) (member : x ∈ l) : ¬ m.alone x :=
  fun alone => (ringInside r member).1 alone.2

end Rings

section Changes
variable [DecidableEq α] {m : Links α} {n : α} {a b : List α}

omit [DecidableEq α] in
theorem behindFirst {q : α} (nodup : (h :: (a ++ q :: b)).Nodup) : q ∉ b ++ [h] := by
  simp only [List.nodup_cons,List.nodup_append,List.mem_append,List.mem_cons] at nodup ⊢
  grind

theorem ringUnlink (r : Ring m h (a ++ n :: b)) : Ring (m.unlink n) h (a ++ b) ∧ (m.unlink n).alone n := by
  obtain ⟨left,right⟩ := segAppend.mp r.seg
  have nodup := r.nodup
  have apart : n ∉ h :: a ∧ n ∉ b ++ [h] ∧ (h :: a).Nodup ∧ (h :: (a ++ b)).Nodup ∧ ∀ x ∈ b, x ∉ h :: a := by
    simp only [List.nodup_cons,List.nodup_append,List.mem_append,List.mem_cons] at nodup ⊢
    grind
  obtain ⟨offA,offB,nodupA,nodupAB,disjoint⟩ := apart
  refine ⟨⟨nodupAB,?_⟩,by simp [Links.alone,unlinkNext,unlinkPrev]⟩
  have before : m.prev n ∈ h :: a := segLast left
  have away : ∀ q, m.next n = q → q ∉ a → q ≠ n → Seg (m.unlink n) h a q := by
    intro q next fresh other
    refine segRedirect left nodupA ⟨?_,?_⟩ ?_ ?_
    · rw [unlinkNext,if_neg (ne_of_mem_of_not_mem before offA),if_pos rfl,next]
    · rw [unlinkPrev,if_neg other,if_pos next.symm]
    · intro x member apart
      rw [unlinkNext,if_neg (ne_of_mem_of_not_mem member offA),if_neg apart]
    · intro x member
      rw [unlinkPrev,if_neg (ne_of_mem_of_not_mem (List.mem_cons_of_mem _ member) offA),if_neg]
      rintro rfl
      exact fresh (next ▸ member)
  cases b with
  | nil =>
    rw [List.append_nil]
    exact away h right.1 (List.nodup_cons.mp nodupA).1 (fun e => offA (e ▸ List.mem_cons_self))
  | cons q rest =>
    have off := disjoint q List.mem_cons_self
    refine segAppend.mpr ⟨away q right.1 (fun e => off (List.mem_cons_of_mem _ e)) (fun e => offB (by simp [e])),?_⟩
    refine segAgree right.2.2 (fun x member => ?_) fun x member => ?_
    · rw [unlinkNext,if_neg (fun e => offB (by rw [← e]; exact List.mem_append_left _ member)),if_neg]
      rintro rfl
      exact disjoint _ member before
    · rw [unlinkPrev,if_neg (fun e => offB (by rw [← e]; exact List.mem_cons_of_mem _ member)),if_neg]
      rintro rfl
      rw [right.1] at member
      exact behindFirst nodupAB member

theorem ringInsert (r : Ring m h (a ++ b)) (fresh : n ∉ h :: (a ++ b)) : Ring (m.insertBefore (b.headD h) n) h (a ++ n :: b) := by
  have nodup := r.nodup
  have apart : n ∉ h :: a ∧ n ∉ b ++ [h] ∧ (h :: a).Nodup ∧ (h :: (a ++ n :: b)).Nodup ∧ ∀ x ∈ b, x ∉ h :: a := by
    simp only [List.nodup_cons,List.nodup_append,List.mem_append,List.mem_cons] at nodup fresh ⊢
    grind
  obtain ⟨offA,offB,nodupA,nodupAB,disjoint⟩ := apart
  refine ⟨nodupAB,segAppend.mpr ?_⟩
  have away : ∀ q, q ∉ a → n ≠ q → Seg m h a q → Seg (m.insertBefore q n) h a n := by
    intro q off other seg
    have before := segLast seg
    refine segRedirect seg nodupA ⟨?_,?_⟩ ?_ ?_
    · rw [insertNext,if_pos rfl]
    · rw [insertPrev,if_neg other,if_pos rfl]
    · intro x member apart
      rw [insertNext,if_neg apart,if_neg (ne_of_mem_of_not_mem member offA)]
    · intro x member
      rw [insertPrev,if_neg (ne_of_mem_of_not_mem member off),if_neg (ne_of_mem_of_not_mem (List.mem_cons_of_mem _ member) offA)]
  cases b with
  | nil =>
    have seg : Seg m h a h := by simpa using r.seg
    have before := segLast seg
    refine ⟨away h (List.nodup_cons.mp nodupA).1 (fun e => offA (e ▸ List.mem_cons_self)) seg,?_,?_⟩
    · rw [List.headD_nil,insertNext,if_neg (ne_of_mem_of_not_mem before offA).symm,if_pos rfl]
    · rw [List.headD_nil,insertPrev,if_pos rfl]
  | cons q rest =>
    obtain ⟨left,right⟩ := segAppend.mp r.seg
    have before := segLast left
    have off := disjoint q List.mem_cons_self
    refine ⟨away q (fun e => off (List.mem_cons_of_mem _ e)) (fun e => offB (by simp [e])) left,?_,?_,?_⟩
    · rw [List.headD_cons,insertNext,if_neg (ne_of_mem_of_not_mem before offA).symm,if_pos rfl]
    · rw [List.headD_cons,insertPrev,if_pos rfl]
    · refine segAgree right (fun x member => ?_) fun x member => ?_
      · rw [List.headD_cons,insertNext,if_neg,if_neg (fun e => offB (by rw [← e]; exact List.mem_append_left _ member))]
        rintro rfl
        exact disjoint _ member before
      · rw [List.headD_cons,insertPrev,if_neg (ne_of_mem_of_not_mem member (behindFirst nodup)),
          if_neg (fun e => offB (by rw [← e]; exact List.mem_cons_of_mem _ member))]

theorem ringUnlinkOther {k} (r : Ring m h l) (far : n ∉ h :: l) (other : Ring m k b) (member : n ∈ b)
    (disjoint : ∀ x ∈ h :: l, x ∉ k :: b) : Ring (m.unlink n) h l := by
  obtain ⟨a,c,rfl⟩ := List.append_of_mem member
  obtain ⟨left,right⟩ := segAppend.mp other.seg
  have before := segLast left
  have behind := (ringInside other member).2
  refine ringAgree r fun x inside => ⟨?_,?_⟩
  · rw [unlinkNext,if_neg (ne_of_mem_of_not_mem inside far),if_neg]
    rintro rfl
    exact disjoint _ inside (by simp only [List.mem_cons,List.mem_append] at before ⊢; grind)
  · rw [unlinkPrev,if_neg (ne_of_mem_of_not_mem inside far),if_neg]
    rintro rfl
    exact disjoint _ inside behind

theorem ringInsertOther {k pos} (r : Ring m h l) (far : n ∉ h :: l) (other : Ring m k b) (member : pos ∈ k :: b)
    (disjoint : ∀ x ∈ h :: l, x ∉ k :: b) : Ring (m.insertBefore pos n) h l := by
  have before : m.prev pos ∈ k :: b := by
    rcases List.mem_cons.mp member with rfl | inside
    · exact segLast other.seg
    · obtain ⟨a,c,rfl⟩ := List.append_of_mem inside
      have := segLast (segAppend.mp other.seg).1
      simp only [List.mem_cons,List.mem_append] at this ⊢
      grind
  refine ringAgree r fun x inside => ⟨?_,?_⟩
  · rw [insertNext,if_neg,if_neg (ne_of_mem_of_not_mem inside far)]
    rintro rfl
    exact disjoint _ inside before
  · rw [insertPrev,if_neg,if_neg (ne_of_mem_of_not_mem inside far)]
    rintro rfl
    exact disjoint _ inside member

theorem insertAlone (alone : m.alone h) : m.insertBefore h h = m := by
  obtain ⟨next,prev⟩ := m
  obtain ⟨first,second⟩ := alone
  dsimp only at first second
  simp [Links.insertBefore,Links.setNext,Links.setPrev,first,second]

end Changes

inductive Node (κ ν : Type) where
  | head (k : κ)
  | node (n : ν)
  deriving DecidableEq

structure Forest {κ ν : Type} (m : Links (Node κ ν)) (q : κ → List ν) : Prop where
  ring : ∀ k, Ring m (.head k) ((q k).map .node)
  apart : ∀ n k l, n ∈ q k → n ∈ q l → k = l
  loose : ∀ n, (∀ k, n ∉ q k) → m.alone (.node n)

section Forest
variable {κ ν : Type} {m : Links (Node κ ν)} {q : κ → List ν} {k : κ} {n : ν}

theorem forestNodup (f : Forest m q) (k : κ) : (q k).Nodup := (List.nodup_cons.mp (f.ring k).nodup).2.of_map _

theorem forestAlone (f : Forest m q) : m.alone (.node n) ↔ ∀ k, n ∉ q k :=
  ⟨fun alone k member => ringLinked (f.ring k) (List.mem_map_of_mem member) alone,f.loose n⟩

theorem forestEmpty (f : Forest m q) : m.alone (.head k) ↔ q k = [] :=
  (ringAlone (f.ring k)).trans List.map_eq_nil_iff

theorem forestFirst (f : Forest m q) : m.next (.head k) = ((q k).map .node).headD (.head k) := segFirst (f.ring k).seg

theorem forestLast (f : Forest m q) : m.prev (.head k) = ((q k).reverse.map .node).headD (.head k) := by
  rw [List.map_reverse]
  exact segFirst (ringFlip (f.ring k)).seg

theorem forestLinks {m' q'} (f : Forest m q) (f' : Forest m' q')
    (others : ∀ l, l ≠ k → q' l = q l) (members : ∀ x, x ≠ n → x ∈ q' k → x ∈ q k) {x}
    (away : x ∉ Node.head k :: (q k).map .node) (apart : x ≠ .node n) : m'.next x = m.next x ∧ m'.prev x = m.prev x := by
  cases x with
  | head l =>
    have other : l ≠ k := by
      rintro rfl
      exact away List.mem_cons_self
    have ring := f'.ring l
    rw [others l other] at ring
    exact ringLinks (f.ring l) ring List.mem_cons_self
  | node y =>
    by_cases linked : ∃ l, y ∈ q l
    · obtain ⟨l,member⟩ := linked
      have other : l ≠ k := by
        rintro rfl
        exact away (List.mem_cons_of_mem _ (List.mem_map_of_mem member))
      have ring := f'.ring l
      rw [others l other] at ring
      exact ringLinks (f.ring l) ring (List.mem_cons_of_mem _ (List.mem_map_of_mem member))
    · have absent : ∀ l, y ∉ q l := fun l member => linked ⟨l,member⟩
      have gone : ∀ l, y ∉ q' l := by
        intro l member
        by_cases here : l = k
        · subst here
          exact absent l (members y (fun same => apart (congrArg _ same)) member)
        · rw [others l here] at member
          exact absent l member
      obtain ⟨prev,next⟩ := f.loose y absent
      obtain ⟨prev',next'⟩ := f'.loose y gone
      exact ⟨next'.trans next.symm,prev'.trans prev.symm⟩

theorem forestUnique {m'} (f : Forest m q) (f' : Forest m' q) : m' = m := by
  have same : ∀ x, m'.next x = m.next x ∧ m'.prev x = m.prev x := by
    intro x
    cases x with
    | head k => exact ringLinks (f.ring k) (f'.ring k) List.mem_cons_self
    | node y =>
      by_cases linked : ∃ k, y ∈ q k
      · obtain ⟨k,member⟩ := linked
        exact ringLinks (f.ring k) (f'.ring k) (List.mem_cons_of_mem _ (List.mem_map_of_mem member))
      · obtain ⟨prev,next⟩ := f.loose y (not_exists.mp linked)
        obtain ⟨prev',next'⟩ := f'.loose y (not_exists.mp linked)
        exact ⟨next'.trans next.symm,prev'.trans prev.symm⟩
  exact Links.ext (funext fun x => (same x).1) (funext fun x => (same x).2)

theorem forestNext {a b : List ν} (f : Forest m q) (split : q k = a ++ n :: b) : m.next (.node n) = (b.map .node).headD (.head k) := by
  have ring := f.ring k
  rw [split,List.map_append,List.map_cons] at ring
  exact segFirst (segAppend.mp ring.seg).2

variable [DecidableEq κ] [DecidableEq ν]

omit [DecidableEq κ] [DecidableEq ν] in
theorem forestDisjoint {l} (f : Forest m q) (other : l ≠ k) :
    ∀ x, x ∈ Node.head l :: (q l).map .node → x ∉ Node.head k :: (q k).map .node := by
  intro x inside there
  simp only [List.mem_cons,List.mem_map] at inside there
  rcases inside with rfl | ⟨y,left,rfl⟩
  · simp [other] at there
  · rcases there with absurd | ⟨z,right,e⟩
    · cases absurd
    · cases e
      exact other (f.apart y l k left right)

theorem forestUnlink (f : Forest m q) (n : ν) : Forest (m.unlink (.node n)) (fun k => (q k).erase n) := by
  by_cases linked : ∃ k, n ∈ q k
  · obtain ⟨k,member⟩ := linked
    obtain ⟨a,b,split⟩ := List.append_of_mem member
    have nodup := forestNodup f k
    have fresh : n ∉ a ∧ n ∉ b := by
      rw [split,List.nodup_append] at nodup
      simp only [List.nodup_cons,List.mem_cons] at nodup
      grind
    have here := f.ring k
    rw [split,List.map_append,List.map_cons] at here
    obtain ⟨ring,alone⟩ := ringUnlink here
    have mine : (q k).erase n = a ++ b := by rw [split,List.erase_append_right _ fresh.1,List.erase_cons_head]
    have others : ∀ l, l ≠ k → n ∉ q l := fun l other found => other (f.apart n l k found member)
    refine ⟨fun l => ?_,?_,?_⟩
    · by_cases same : l = k
      · subst same
        rw [mine,List.map_append]
        exact ring
      · rw [List.erase_of_not_mem (others l same)]
        exact ringUnlinkOther (f.ring l) (by simpa using others l same) (f.ring k) (List.mem_map_of_mem member) (forestDisjoint f same)
    · exact fun x k l left right => f.apart x k l (List.mem_of_mem_erase left) (List.mem_of_mem_erase right)
    · intro x gone
      by_cases same : x = n
      · subst same
        exact alone
      · have away : ∀ l, x ∉ q l := fun l found => gone l ((List.mem_erase_of_ne same).mpr found)
        obtain ⟨prev,next⟩ := f.loose x away
        have first : m.prev (.node n) ∈ Node.head k :: (q k).map .node := by
          have := segLast (segAppend.mp here.seg).1
          rw [split,List.map_append]
          simp only [List.mem_cons,List.mem_append] at this ⊢
          grind
        have last := (ringInside (f.ring k) (List.mem_map_of_mem member)).2
        have off : Node.node x ∉ Node.head k :: (q k).map .node := by simpa using away k
        constructor
        · rw [unlinkPrev,if_neg (by simpa using same),if_neg (ne_of_mem_of_not_mem last off).symm,prev]
        · rw [unlinkNext,if_neg (by simpa using same),if_neg (ne_of_mem_of_not_mem first off).symm,next]
  · have absent : ∀ k, n ∉ q k := fun k member => linked ⟨k,member⟩
    have same : (fun k => (q k).erase n) = q := funext fun k => List.erase_of_not_mem (absent k)
    rw [unlinkAlone (f.loose n absent),same]
    exact f

omit [DecidableEq ν] in
theorem insertedMem {a b} (split : q k = a ++ b) {x l} : x ∈ Function.update q k (a ++ n :: b) l ↔ x = n ∧ l = k ∨ x ∈ q l := by
  by_cases same : l = k
  · subst same
    rw [Function.update_self,split]
    simp only [List.mem_append,List.mem_cons]
    grind
  · rw [Function.update_of_ne same]
    simp [same]

theorem forestInsert {a b : List ν} (f : Forest m q) (split : q k = a ++ b) (fresh : ∀ l, n ∉ q l) :
    Forest (m.insertBefore ((b.map .node).headD (.head k)) (.node n)) (Function.update q k (a ++ n :: b)) := by
  have here := f.ring k
  have off : Node.node n ∉ Node.head k :: (q k).map .node := by simpa using fresh k
  rw [split,List.map_append] at here off
  have ring := ringInsert here off
  have place : (b.map .node).headD (.head k) ∈ Node.head k :: (a.map .node ++ b.map .node) := by
    cases b with
    | nil => simp
    | cons x rest => simp
  have before : m.prev ((b.map .node).headD (.head k)) ∈ Node.head k :: (a.map .node ++ b.map .node) := by
    cases b with
    | nil => exact segLast here.seg
    | cons x rest =>
      have := segLast (segAppend.mp here.seg).1
      simp only [List.map_cons,List.headD_cons,List.mem_cons,List.mem_append] at this ⊢
      grind
  refine ⟨fun l => ?_,fun x l l' left right => ?_,fun x gone => ?_⟩
  · by_cases same : l = k
    · subst same
      rw [Function.update_self,List.map_append,List.map_cons]
      exact ring
    · rw [Function.update_of_ne same]
      refine ringInsertOther (f.ring l) (by simpa using fresh l) here place fun x inside other => ?_
      rw [← List.map_append,← split] at other
      exact forestDisjoint f same x inside other
  · rcases (insertedMem split).mp left with ⟨rfl,rfl⟩ | first
    · rcases (insertedMem split).mp right with ⟨_,rfl⟩ | second
      · rfl
      · exact absurd second (fresh l')
    · rcases (insertedMem split).mp right with ⟨rfl,rfl⟩ | second
      · exact absurd first (fresh l)
      · exact f.apart x l l' first second
  · have other : x ≠ n := by
      rintro rfl
      exact gone k (by simp)
    have away : ∀ l, x ∉ q l := fun l found => gone l ((insertedMem split).mpr (Or.inr found))
    obtain ⟨prev,next⟩ := f.loose x away
    have far : Node.node x ∉ Node.head k :: (a.map .node ++ b.map .node) := by
      have := away k
      rw [split] at this
      simpa using this
    constructor
    · rw [insertPrev,if_neg (ne_of_mem_of_not_mem place far).symm,if_neg (by simpa using other),prev]
    · rw [insertNext,if_neg (ne_of_mem_of_not_mem before far).symm,if_neg (by simpa using other),next]

end Forest
end TskSw.CircularLists
