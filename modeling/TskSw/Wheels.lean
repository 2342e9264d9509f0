import Mathlib.Data.List.Rotate
import Mathlib.Logic.Function.Iterate

/-! A line whose first member is served until its share is used up; it then goes to the end
of the line and the next one has a full share. -/
namespace TskSw.Wheels

structure Wheel (α : Type) where
  line : List α
  left : Nat
  deriving DecidableEq

section Turns
variable {α : Type}

def turn (share : Nat) (w : Wheel α) : Wheel α :=
  if w.left ≤ 1 then ⟨w.line.rotate 1,share⟩ else {w with left := w.left-1}

def agenda (share : Nat) (w : Wheel α) : List α :=
  match w.line with
  | [] => []
  | t :: rest => List.replicate w.left t ++ rest.flatMap (List.replicate share) ++ List.replicate (share-w.left) t

def served (share : Nat) : Nat → Wheel α → List α
  | 0,_ => []
  | n+1,w => w.line.take 1 ++ served share n (turn share w)

structure Turning (share : Nat) (w : Wheel α) : Prop where
  some : w.line ≠ []
  low : 0 < w.left
  high : w.left ≤ share

variable {share : Nat} {w : Wheel α}

theorem turnLength (w : Wheel α) : (turn share w).line.length = w.line.length := by
  unfold turn
  split
  · exact List.length_rotate ..
  · rfl

theorem turnTurning (h : Turning share w) : Turning share (turn share w) := by
  obtain ⟨some,low,high⟩ := h
  unfold turn
  split
  · exact ⟨by simpa using some,Nat.lt_of_lt_of_le low high,Nat.le_refl share⟩
  · exact ⟨some,by dsimp only; omega,by dsimp only; omega⟩

theorem agendaFull (line : List α) (share) : agenda share ⟨line,share⟩ = line.flatMap (List.replicate share) := by
  cases line with
  | nil => rfl
  | cons t rest => simp [agenda]

theorem agendaFirst (h : Turning share w) : (agenda share w).head? = w.line.head? := by
  obtain ⟨_ | ⟨t,rest⟩,left⟩ := w
  · exact absurd rfl h.some
  · obtain ⟨n,rfl⟩ := Nat.exists_eq_succ_of_ne_zero h.low.ne'
    rfl

theorem agendaLength (h : Turning share w) : (agenda share w).length = w.line.length*share := by
  obtain ⟨_ | ⟨t,rest⟩,left⟩ := w
  · exact absurd rfl h.some
  · have high := h.high
    dsimp only at high
    simp only [agenda,List.length_append,List.length_replicate,List.length_flatMap,List.map_const',List.sum_replicate_nat,
      List.length_cons,Nat.succ_mul]
    omega

theorem agendaTurn (h : Turning share w) : agenda share (turn share w) = (agenda share w).rotate 1 := by
  obtain ⟨_ | ⟨t,rest⟩,left⟩ := w
  · exact absurd rfl h.some
  · obtain ⟨_,low,high⟩ := h
    dsimp only at low high
    obtain ⟨n,rfl⟩ := Nat.exists_eq_succ_of_ne_zero low.ne'
    simp only [agenda,List.replicate_succ,List.cons_append,List.rotate_cons_succ,List.rotate_zero]
    by_cases last : n = 0
    · subst last
      have turned : turn share ⟨t :: rest,1⟩ = ⟨rest ++ [t],share⟩ := by simp [turn]
      have whole : List.replicate (share-1) t ++ [t] = List.replicate share t := by
        rw [← List.replicate_succ',Nat.sub_add_cancel high]
      rw [turned]
      change agenda share ⟨rest ++ [t],share⟩ = _
      rw [agendaFull,List.flatMap_append,List.append_assoc,whole]
      simp
    · have turned : turn share ⟨t :: rest,n+1⟩ = ⟨t :: rest,n⟩ := by simp [turn,last]
      have longer : share-n = share-(n+1)+1 := by omega
      rw [turned]
      simp only [longer,List.replicate_succ',List.append_assoc]

theorem iterateTurning (h : Turning share w) (n) : Turning share ((turn share)^[n] w) := by
  induction n with
  | zero => exact h
  | succ n ih =>
    rw [Function.iterate_succ_apply']
    exact turnTurning ih

theorem iterateLength (w : Wheel α) (n : Nat) : ((turn share)^[n] w).line.length = w.line.length := by
  induction n with
  | zero => rfl
  | succ n ih => rw [Function.iterate_succ_apply',turnLength,ih]

theorem iterateAgenda (h : Turning share w) (n : Nat) : agenda share ((turn share)^[n] w) = (agenda share w).rotate n := by
  induction n with
  | zero => exact (List.rotate_zero _).symm
  | succ n ih => rw [Function.iterate_succ_apply',agendaTurn (iterateTurning h n),ih,List.rotate_rotate]

theorem servedTake (h : Turning share w) {n} (short : n ≤ (agenda share w).length) : served share n w = (agenda share w).take n := by
  induction n generalizing w with
  | zero => rfl
  | succ n ih =>
    have next := agendaTurn h
    have first := agendaFirst h
    cases whole : agenda share w with
    | nil => simp [whole] at short
    | cons t rest =>
      rw [whole,List.rotate_cons_succ,List.rotate_zero] at next
      rw [whole,List.length_cons] at short
      rw [whole,List.head?_cons] at first
      have front : w.line.take 1 = [t] := by rw [List.take_one,← first]; rfl
      rw [served,front,ih (turnTurning h) (by rw [next]; simp; omega),next,List.take_append_of_le_length (by omega)]
      rfl

theorem servedRound (h : Turning share w) : served share (w.line.length*share) w = agenda share w := by
  rw [← agendaLength h,servedTake h (Nat.le_refl _),List.take_length]

theorem turnsShare {line : List α} {n} (inside : n < share) : (turn share)^[n] ⟨line,share⟩ = ⟨line,share-n⟩ := by
  induction n with
  | zero => rfl
  | succ n ih =>
    have more : ¬ share-n ≤ 1 := by omega
    rw [Function.iterate_succ_apply',ih (by omega),turn,if_neg more,Nat.sub_sub]

theorem turnsFull (positive : 0 < share) (line : List α) : (turn share)^[share] ⟨line,share⟩ = ⟨line.rotate 1,share⟩ := by
  obtain ⟨n,rfl⟩ := Nat.exists_eq_succ_of_ne_zero positive.ne'
  have one : n+1-n ≤ 1 := by omega
  rw [Function.iterate_succ_apply',turnsShare (Nat.lt_succ_self n),turn,if_pos one]

theorem turnsMany (positive : 0 < share) (line : List α) (k) : (turn share)^[k*share] ⟨line,share⟩ = ⟨line.rotate k,share⟩ := by
  induction k with
  | zero => simp
  | succ k ih => rw [Nat.succ_mul,Nat.add_comm,Function.iterate_add_apply,ih,turnsFull positive,List.rotate_rotate]

theorem roundReturns (positive : 0 < share) (line : List α) (n : Nat) :
    (turn share)^[line.length*share] ((turn share)^[n] ⟨line,share⟩) = (turn share)^[n] ⟨line,share⟩ := by
  rw [← Function.iterate_add_apply,Nat.add_comm,Function.iterate_add_apply,turnsMany positive,List.rotate_length]

end Turns

end TskSw.Wheels
