import TskSw.CircularLists
import Mathlib.Data.List.Rotate

/-! The lists of `common/list.c`. A node that is in a list may be taken out again with
`list_del`, and so may one that is in none; only a node that is in none may be added. -/
namespace TskSw.KernList
open CircularLists
open Function (update update_of_ne update_self)

section Functions
variable {α : Type} [DecidableEq α]

def listDel (m : Links α) (node : α) : Links α := m.unlink node
def listInsertAt (m : Links α) (pos node : α) : Links α := m.insertBefore pos node
def listAdd (m : Links α) (head node : α) : Links α := m.insertBefore head node
def listAddTop (m : Links α) (head node : α) : Links α := m.insertAfter head node
def listRefTop (m : Links α) (head : α) : α := m.next head

def listGetTop (m : Links α) (head : α) : α × Links α := (listRefTop m head,listDel m (listRefTop m head))

def listRefTail (m : Links α) (head : α) : α := m.prev head

def listGetTail (m : Links α) (head : α) : α × Links α := (listRefTail m head,listDel m (listRefTail m head))

def listIsEmpty (m : Links α) (head : α) : Bool := decide (m.prev head = head ∧ m.next head = head)
def listIsLinked (m : Links α) (node : α) : Bool := !decide (m.prev node = node ∧ m.next node = node)
def initListNode (m : Links α) (node : α) : Links α := m.isolate node

-- An empty list gives its own head, which is then added to itself.
def listRotate (m : Links α) (head : α) : Links α := listAdd (listGetTop m head).2 head (listGetTop m head).1

def listForEach (fuel : Nat) (m : Links α) (head : α) : Option (List α) := visit m.next head fuel (listRefTop m head)
def reverseForEach (fuel : Nat) (m : Links α) (head : α) : Option (List α) := visit m.prev head fuel (listRefTail m head)

end Functions

def unlinked {α : Type} : Links α := ⟨id,id⟩

section Lists
variable {κ ν : Type} [DecidableEq κ] [DecidableEq ν] {m : Links (Node κ ν)} {q : κ → List ν} {k : κ} {n : ν}

omit [DecidableEq κ] [DecidableEq ν] in
theorem forestStart : Forest (unlinked : Links (Node κ ν)) (fun _ => []) :=
  ⟨fun _ => ringEmpty.mpr ⟨rfl,rfl⟩,fun _ _ _ member => absurd member List.not_mem_nil,fun _ _ => ⟨rfl,rfl⟩⟩

theorem isEmptyForest (f : Forest m q) : listIsEmpty m (.head k) = true ↔ q k = [] := by
  rw [listIsEmpty,decide_eq_true_iff]
  exact forestEmpty f

theorem isLinkedForest (f : Forest m q) : listIsLinked m (.node n) = false ↔ ∀ k, n ∉ q k := by
  rw [listIsLinked,Bool.not_eq_false',decide_eq_true_iff]
  exact forestAlone f

theorem isolateAlone {α : Type} [DecidableEq α] {m : Links α} {n} (alone : m.alone n) : initListNode m n = m := by
  obtain ⟨next,prev⟩ := m
  obtain ⟨first,second⟩ := alone
  dsimp only at first second
  have keepNext : update next n n = next := Function.update_eq_self_iff.mpr second.symm
  have keepPrev : update prev n n = prev := Function.update_eq_self_iff.mpr first.symm
  simp [initListNode,Links.isolate,Links.setNext,Links.setPrev,keepNext,keepPrev]

theorem addForest (f : Forest m q) (fresh : ∀ l, n ∉ q l) :
    Forest (listAdd m (.head k) (.node n)) (update q k (q k ++ [n])) :=
  forestInsert (b := []) f (List.append_nil (q k)).symm fresh

theorem delForest (f : Forest m q) (n : ν) : Forest (listDel m (.node n)) (fun k => (q k).erase n) := forestUnlink f n

theorem erasedUpdate {a b} (f : Forest m q) (split : q k = a ++ n :: b) : (fun l => (q l).erase n) = update q k (a ++ b) := by
  have member : n ∈ q k := by rw [split]; simp
  have off : n ∉ a := by
    have nodup := forestNodup f k
    rw [split,List.nodup_append] at nodup
    exact fun inside => nodup.2.2 n inside n List.mem_cons_self rfl
  funext l
  by_cases here : l = k
  · subst here
    rw [update_self,split,List.erase_append_right _ off,List.erase_cons_head]
  · rw [update_of_ne here,List.erase_of_not_mem fun inside => here (f.apart n l k inside member)]

theorem getTopForest (f : Forest m q) {rest} (first : q k = n :: rest) :
    (listGetTop m (.head k)).1 = .node n ∧ Forest (listGetTop m (.head k)).2 (update q k rest) := by
  have top : listRefTop m (.head k) = .node n := by
    rw [listRefTop,forestFirst f,first]
    rfl
  refine ⟨top,?_⟩
  have same := erasedUpdate (a := []) f first
  rw [List.nil_append] at same
  rw [listGetTop,top,← same]
  exact delForest f n

omit [DecidableEq ν] in
theorem poppedFresh (f : Forest m q) {rest} (first : q k = n :: rest) : ∀ l, n ∉ update q k rest l := by
  intro l
  by_cases here : l = k
  · subst here
    have nodup := forestNodup f l
    rw [first] at nodup
    rw [update_self]
    exact (List.nodup_cons.mp nodup).1
  · rw [update_of_ne here]
    exact fun member => here (f.apart n l k member (by rw [first]; exact List.mem_cons_self))

omit [DecidableEq ν] in
theorem appendedMem {x l} : x ∈ update q k (q k ++ [n]) l ↔ x ∈ q l ∨ l = k ∧ x = n := by
  by_cases here : l = k
  · subst here
    simp
  · simp [here]

omit [DecidableEq ν] in
theorem poppedMem (f : Forest m q) {rest : List ν} (first : q k = n :: rest) {x : ν} {l : κ} :
    x ∈ update q k rest l ↔ x ∈ q l ∧ x ≠ n := by
  have fresh := poppedFresh f first l
  by_cases here : l = k
  · subst here
    rw [update_self] at fresh ⊢
    rw [first,List.mem_cons]
    exact ⟨fun member => ⟨Or.inr member,fun same => fresh (same ▸ member)⟩,fun member => member.1.resolve_left member.2⟩
  · rw [update_of_ne here] at fresh ⊢
    exact ⟨fun member => ⟨member,fun same => fresh (same ▸ member)⟩,And.left⟩

omit [DecidableEq κ] in
theorem erasedMem (f : Forest m q) {x l} : x ∈ (q l).erase n ↔ x ∈ q l ∧ x ≠ n := by
  rw [(forestNodup f l).mem_erase_iff]
  exact and_comm

theorem moveForest {a b : List ν} {l : κ} (f : Forest m q) (split : q k = a ++ n :: b) (other : l ≠ k) :
    Forest (listAdd (listDel m (.node n)) (.head l) (.node n)) (update (update q k (a ++ b)) l (q l ++ [n])) := by
  have member : n ∈ q k := by rw [split]; simp
  have away : n ∉ q l := fun inside => other (f.apart n l k inside member)
  have gone := delForest f n
  have fresh : ∀ j, n ∉ (q j).erase n := fun j inside => (List.Nodup.mem_erase_iff (forestNodup f j)).mp inside |>.1 rfl
  have added := addForest (k := l) gone fresh
  rw [List.erase_of_not_mem away,erasedUpdate f split] at added
  exact added

theorem rotateEmpty (f : Forest m q) (none : q k = []) : listRotate m (.head k) = m := by
  have alone := (forestEmpty f).mpr none
  rw [listRotate,listGetTop,listRefTop,alone.2]
  dsimp only
  rw [listDel,unlinkAlone alone,listAdd,insertAlone alone]

theorem rotateForest (f : Forest m q) : Forest (listRotate m (.head k)) (update q k ((q k).rotate 1)) := by
  cases first : q k with
  | nil =>
    have same : update q k ([].rotate 1) = q := Function.update_eq_self_iff.mpr first.symm
    rw [same,rotateEmpty f first]
    exact f
  | cons n rest =>
    obtain ⟨top,popped⟩ := getTopForest f first
    have added := addForest (k := k) popped (poppedFresh f first)
    rw [update_self,Function.update_idem] at added
    rw [listRotate,top,List.rotate_cons_succ,List.rotate_zero]
    exact added

theorem addTopForest (f : Forest m q) (fresh : ∀ l, n ∉ q l) :
    Forest (listAddTop m (.head k) (.node n)) (update q k (n :: q k)) := by
  have back : m.prev (m.next (.head k)) = .head k := by
    have seg := (f.ring k).seg
    cases first : (q k).map (Node.node (κ := κ)) with
    | nil =>
      rw [first] at seg
      rw [seg.1,seg.2]
    | cons x rest =>
      rw [first] at seg
      rw [seg.1,seg.2.1]
  rw [listAddTop,insertAfterBefore back (by simp),forestFirst f]
  exact forestInsert (a := []) f rfl fresh

theorem insertForest {p a b} (f : Forest m q) (split : q k = a ++ p :: b) (fresh : ∀ l, n ∉ q l) :
    Forest (listInsertAt m (.node p) (.node n)) (update q k (a ++ n :: p :: b)) := forestInsert f split fresh

theorem getTailForest {a : List ν} (f : Forest m q) (last : q k = a ++ [n]) :
    (listGetTail m (.head k)).1 = .node n ∧ Forest (listGetTail m (.head k)).2 (update q k a) := by
  have tail : listRefTail m (.head k) = .node n := by
    rw [listRefTail,forestLast f,last,List.reverse_append]
    rfl
  refine ⟨tail,?_⟩
  have erased := erasedUpdate f last
  rw [List.append_nil] at erased
  rw [listGetTail,tail,← erased]
  exact delForest f n

theorem forEachForest (f : Forest m q) {fuel : Nat} (enough : (q k).length < fuel) :
    listForEach fuel m (.head k) = some ((q k).map .node) ∧ reverseForEach fuel m (.head k) = some ((q k).reverse.map .node) := by
  have off : ∀ l : List ν, Node.head k ∉ l.map (Node.node (κ := κ)) := by simp
  refine ⟨segVisit (f.ring k).seg (off _) (by rw [List.length_map]; exact enough),?_⟩
  have back := ringFlip (f.ring k)
  rw [← List.map_reverse] at back
  exact segVisit back.seg (off _) (by rw [List.length_map,List.length_reverse]; exact enough)

structure Changes (m : Links (Node κ ν)) (q : κ → List ν) (k : κ) (n : ν) (m' : Links (Node κ ν)) (l : List ν) : Prop where
  forest : Forest m' (update q k l)
  frame : ∀ x, x ∉ Node.head k :: (q k).map .node → x ≠ .node n → m'.next x = m.next x ∧ m'.prev x = m.prev x

omit [DecidableEq ν] in
theorem forestChanges {m' l} (f : Forest m q) (f' : Forest m' (update q k l))
    (members : ∀ x ∈ l, x ≠ n → x ∈ q k) : Changes m q k n m' l := by
  refine ⟨f',fun x away apart => forestLinks (n := n) f f' (fun l other => update_of_ne other _ _) (fun y other member => ?_) away apart⟩
  rw [update_self] at member
  exact members y member other

theorem listsHoldSequences (f : Forest m q) (k : κ) :
    (∀ n, (∀ l, n ∉ q l) → Changes m q k n (listAdd m (.head k) (.node n)) (q k ++ [n]) ∧
      Changes m q k n (listAddTop m (.head k) (.node n)) (n :: q k) ∧
      (∀ a p b, q k = a ++ p :: b → Changes m q k n (listInsertAt m (.node p) (.node n)) (a ++ n :: p :: b)) ∧
      Changes m q k n (listInsertAt m (.head k) (.node n)) (q k ++ [n]) ∧ listDel m (.node n) = m) ∧
    (∀ n a b, q k = a ++ n :: b → Changes m q k n (listDel m (.node n)) (a ++ b) ∧ (listDel m (.node n)).alone (.node n)) ∧
    (∀ n rest, q k = n :: rest → (listGetTop m (.head k)).1 = .node n ∧ Changes m q k n (listGetTop m (.head k)).2 rest) ∧
    (∀ n rest, q k = rest ++ [n] → (listGetTail m (.head k)).1 = .node n ∧ Changes m q k n (listGetTail m (.head k)).2 rest) ∧
    (∀ n, Changes m q k n (listRotate m (.head k)) ((q k).rotate 1)) ∧ (q k = [] → listRotate m (.head k) = m) ∧
    (listIsEmpty m (.head k) = true ↔ q k = []) ∧
    ∀ fuel, (q k).length < fuel → listForEach fuel m (.head k) = some ((q k).map .node) ∧
      reverseForEach fuel m (.head k) = some ((q k).reverse.map .node) := by
  have fewer : ∀ {n a b}, q k = a ++ n :: b → ∀ x ∈ a ++ b, x ∈ q k := by
    intro n a b split x member
    rw [split,List.mem_append,List.mem_cons]
    exact (List.mem_append.mp member).imp id Or.inr
  have appended : ∀ n, (∀ l, n ∉ q l) → Changes m q k n (listAdd m (.head k) (.node n)) (q k ++ [n]) := by
    intro n fresh
    refine forestChanges f (addForest f fresh) fun x member other => ?_
    exact (List.mem_append.mp member).resolve_right fun new => other (List.mem_singleton.mp new)
  refine ⟨fun n fresh => ⟨appended n fresh,?_,fun a p b split => ?_,appended n fresh,unlinkAlone (f.loose n fresh)⟩,fun n a b split =>
    ⟨?_,?_⟩,fun n rest first => ?_,
    fun n rest last => ?_,fun n => ?_,rotateEmpty f,isEmptyForest f,fun fuel enough => forEachForest f enough⟩
  · exact forestChanges f (addTopForest f fresh) fun x member other => (List.mem_cons.mp member).resolve_left other
  · refine forestChanges f (insertForest f split fresh) fun x member other => ?_
    rw [List.mem_append,List.mem_cons] at member
    rw [split,List.mem_append]
    exact member.imp id fun later => later.resolve_left other
  · have gone := delForest f n
    rw [erasedUpdate f split] at gone
    exact forestChanges f gone fun x member _ => fewer split x member
  · exact (delForest f n).loose n fun l member => ((erasedMem f).mp member).2 rfl
  · obtain ⟨top,popped⟩ := getTopForest f first
    exact ⟨top,forestChanges f popped fun x member _ => fewer (a := []) first x member⟩
  · obtain ⟨tail,popped⟩ := getTailForest f last
    exact ⟨tail,forestChanges f popped fun x member _ => fewer (b := []) last x (by rw [List.append_nil]; exact member)⟩
  · exact forestChanges f (rotateForest f) fun x member _ => List.mem_rotate.mp member

end Lists

def twoLists : Links (Node Bool Nat) :=
  listAdd (listAdd (listAdd (listAdd unlinked (.head false) (.node 1)) (.head false) (.node 2)) (.head true) (.node 3)) (.head true) (.node 4)

def twoQueues (k : Bool) : List Nat := if k then [3,4] else [1,2]

theorem twoForest : Forest twoLists twoQueues := by
  have one := addForest (k := false) (n := 1) (forestStart (κ := Bool)) fun _ => List.not_mem_nil
  have two := addForest (k := false) (n := 2) one (by decide)
  have three := addForest (k := true) (n := 3) two (by decide)
  have four := addForest (k := true) (n := 4) three (by decide)
  refine cast (congrArg (Forest twoLists) (funext fun k => ?_)) four
  cases k <;> rfl

theorem twoListsChanged : Changes twoLists twoQueues false 7 (listAdd twoLists (.head false) (.node 7)) [1,2,7] ∧
    Changes twoLists twoQueues true 7 (listAddTop twoLists (.head true) (.node 7)) [7,3,4] ∧
    Changes twoLists twoQueues true 7 (listInsertAt twoLists (.node 4) (.node 7)) [3,7,4] ∧
    Changes twoLists twoQueues false 2 (listDel twoLists (.node 2)) [1] ∧
    (listGetTop twoLists (.head true)).1 = .node 3 ∧ Changes twoLists twoQueues true 3 (listGetTop twoLists (.head true)).2 [4] ∧
    (listGetTail twoLists (.head false)).1 = .node 2 ∧ Changes twoLists twoQueues false 2 (listGetTail twoLists (.head false)).2 [1] ∧
    Changes twoLists twoQueues true 7 (listRotate twoLists (.head true)) [4,3] ∧
    listForEach 3 twoLists (.head true) = some [.node 3,.node 4] ∧ reverseForEach 3 twoLists (.head true) = some [.node 4,.node 3] := by
  have outside : ∀ l, 7 ∉ twoQueues l := by decide
  obtain ⟨addFirst,delFirst,-,tailFirst,-⟩ := listsHoldSequences twoForest false
  obtain ⟨addSecond,-,topSecond,-,rotated,-,-,visited⟩ := listsHoldSequences twoForest true
  obtain ⟨top,popped⟩ := topSecond 3 [4] rfl
  obtain ⟨tail,cut⟩ := tailFirst 2 [1] rfl
  obtain ⟨-,onTop,inserted,-⟩ := addSecond 7 outside
  exact ⟨(addFirst 7 outside).1,onTop,inserted [3] 4 [] rfl,(delFirst 2 [1] [] rfl).1,top,popped,tail,cut,rotated 7,visited 3 (by decide)⟩

end TskSw.KernList
