import TskSw.FsCalls
import TskSw.Ownership

/-! Path resolution is a fold of directory lookups. A path is cut at its slashes into
components; `inode_namei` descends through all of them, `inode_nameiparent` through all
but the last one. -/
namespace TskSw.Paths
open BlockProgram BlkIo FsLayout FsKernel DataBitmap DataBlocks Bmap Inodes CString Directory FsCalls
open Mkfs (fnameMax)

def components (path : List UInt8) : List (List UInt8) := (path.splitOnP (· == slash)).filter (· ≠ [])

def names (path : List UInt8) : List (List UInt8) := (components path).map (List.take fnameMax)

section Components
variable {path rest : List UInt8}

theorem componentsSlash : components (slash :: path) = components path := by
  have cut := List.splitOnP_append_cons (p := (· == slash)) [] path (beq_self_eq_true slash)
  rw [List.nil_append,List.splitOnP_nil] at cut
  rw [components,cut]
  simp [components]

theorem componentsSkip : components (path.dropWhile (· = slash)) = components path := by
  induction path with
  | nil => rfl
  | cons c path ih =>
    by_cases here : c = slash
    · rw [List.dropWhile_cons_of_pos (by simpa using here),ih,here,componentsSlash]
    · rw [List.dropWhile_cons_of_neg (by simpa using here)]

theorem componentsCons {element} (some : element ≠ []) (clean : ∀ c ∈ element, c ≠ slash) (behind : rest = [] ∨ rest.head? = .some slash) :
    components (element ++ rest) = element :: components rest := by
  have whole : element.splitOnP (· == slash) = [element] := List.splitOnP_eq_singleton fun c member => by simpa using clean c member
  rcases behind with rfl | behind
  · rw [List.append_nil,components,whole]
    simp [some,components]
  · obtain ⟨tail,rfl⟩ := List.head?_eq_some_iff.mp behind
    have cut := List.splitOnP_append_cons (p := (· == slash)) element tail (beq_self_eq_true slash)
    rw [components,cut,whole,componentsSlash,List.filter_append]
    simp [some,components]

theorem skipHead (path : List UInt8) : (path.dropWhile (· = slash)).head? ≠ some slash := by
  induction path with
  | nil => simp
  | cons c path ih =>
    by_cases here : c = slash
    · rwa [List.dropWhile_cons_of_pos (by simpa using here)]
    · rw [List.dropWhile_cons_of_neg (by simpa using here)]
      exact fun same => here (Option.some.inj same)

theorem componentsElement (some : path ≠ []) (first : path.head? ≠ .some slash) :
    components path = path.takeWhile (· ≠ slash) :: components (path.dropWhile (· ≠ slash)) := by
  have nonempty : path.takeWhile (· ≠ slash) ≠ [] := by
    cases path with
    | nil => exact absurd rfl some
    | cons c path =>
      have here : c ≠ slash := fun same => first (congrArg Option.some same)
      rw [List.takeWhile_cons_of_pos (by simpa using here)]
      exact List.cons_ne_nil _ _
  have clean : ∀ c ∈ path.takeWhile (· ≠ slash), c ≠ slash := fun c member => by simpa using List.mem_takeWhile_imp member
  have behind : path.dropWhile (· ≠ slash) = [] ∨ (path.dropWhile (· ≠ slash)).head? = .some slash := by
    cases rest : path.dropWhile (· ≠ slash) with
    | nil => exact Or.inl rfl
    | cons c tail =>
      have last := List.head?_dropWhile_not (fun c => decide (c ≠ slash)) path
      rw [rest] at last
      exact Or.inr (congrArg Option.some (by simpa using last))
  have joined := componentsCons nonempty clean behind
  rwa [List.takeWhile_append_dropWhile] at joined

theorem skipNone (done : skipElement path = none) : components path = [] := by
  rw [← componentsSkip]
  by_cases empty : path.dropWhile (· = slash) = []
  · rw [empty]
    rfl
  · rw [skipElement,if_neg empty] at done
    cases done

theorem skipSome {name} (next : skipElement path = some (name,rest)) :
    (∃ element, components path = element :: components rest ∧ name = element.take fnameMax) ∧ rest.length < path.length ∧
      (rest = [] ∨ components rest ≠ []) := by
  by_cases empty : path.dropWhile (· = slash) = []
  · rw [skipElement,if_pos empty] at next
    cases next
  · rw [skipElement,if_neg empty] at next
    simp only [Option.some.injEq,Prod.mk.injEq] at next
    obtain ⟨rfl,rfl⟩ := next
    have first := skipHead path
    have shorter := (List.dropWhile_suffix (l := path) (fun c => decide (c = slash))).length_le
    refine ⟨⟨_,?_,rfl⟩,?_,?_⟩
    · rw [componentsSkip,← componentsElement empty first,componentsSkip]
    · generalize path.dropWhile (· = slash) = p at empty first shorter ⊢
      have inner := (List.dropWhile_suffix (l := p.dropWhile (· ≠ slash)) (fun c => decide (c = slash))).length_le
      cases p with
      | nil => exact absurd rfl empty
      | cons c p =>
        have here : c ≠ slash := fun same => first (congrArg Option.some same)
        have outer := (List.dropWhile_suffix (l := p) (fun c => decide (c ≠ slash))).length_le
        rw [List.dropWhile_cons_of_pos (by simpa using here)] at inner ⊢
        rw [List.length_cons] at shorter
        omega
    · generalize (path.dropWhile (· = slash)).dropWhile (· ≠ slash) = q
      by_cases last : q.dropWhile (· = slash) = []
      · exact Or.inl last
      · refine Or.inr ?_
        rw [componentsElement last (skipHead q)]
        exact List.cons_ne_nil _ _

theorem elementsNames {n} (enough : path.length < n) : elements n path = names path := by
  induction n generalizing path with
  | zero => omega
  | succ n ih =>
    rw [elements]
    cases next : skipElement path with
    | none => rw [names,skipNone next,List.map_nil]
    | some found =>
      obtain ⟨name,rest⟩ := found
      obtain ⟨⟨element,split,rfl⟩,shorter,_⟩ := skipSome next
      rw [names,split,List.map_cons]
      exact congrArg _ (ih (by omega))

end Components

def path2inodeLoop (parent : Bool) (room ip : Nat) (path : List UInt8) : Fs (Option (Nat × List UInt8)) :=
  match _next : skipElement path with
  | none =>
    if parent then do
      inodePut ip
      pure none
    else pure (some (ip,[]))
  | some (name,rest) =>
    if room ≤ name.length then abort .outOfBounds
    else do
      inodeLock ip
      let x ← getInode ip
      if x.iMode ≠ fsImodeDir then do
        inodeUnlock ip
        inodePut ip
        pure none
      else if parent = true ∧ rest = [] then do
        inodeUnlock ip
        pure (some (ip,name))
      else
        match ← inodeDirlookup ip name with
        | none => do
            inodeUnlock ip
            inodePut ip
            pure none
        | some (child,_) => do
            inodeUnlock ip
            inodePut ip
            path2inodeLoop parent room child rest
termination_by path.length
decreasing_by exact (skipSome _next).2.1

theorem loopWalk {parent room ip path} : path2inodeLoop parent room ip path = walk parent room ip (names path) := by
  induction len : path.length using Nat.strong_induction_on generalizing ip path with
  | _ n ih =>
    rw [path2inodeLoop]
    split
    · rename_i next
      rw [names,skipNone next,List.map_nil,walk]
    · rename_i name rest next
      obtain ⟨⟨element,cut,rfl⟩,shorter,last⟩ := skipSome next
      have done : rest = [] ↔ names rest = [] := by
        rw [names,List.map_eq_nil_iff]
        constructor
        · rintro rfl
          rfl
        · exact fun none => last.resolve_right (not_not_intro none)
      have deeper : ∀ child, path2inodeLoop parent room child rest = walk parent room child (names rest) :=
        fun child => ih rest.length (by omega) rfl
      rw [names,cut,List.map_cons,walk]
      simp only [deeper,done]
      rfl

def lookIn (ip : Nat) (name : List UInt8) : Fs (Option Nat) := do
  inodeLock ip
  let x ← getInode ip
  if x.iMode ≠ fsImodeDir then do
    inodeUnlock ip
    inodePut ip
    pure none
  else
    match ← inodeDirlookup ip name with
    | none => do
        inodeUnlock ip
        inodePut ip
        pure none
    | some (child,_) => do
        inodeUnlock ip
        inodePut ip
        pure (some child)

def descend : Nat → List (List UInt8) → Fs (Option Nat)
  | ip,[] => pure (some ip)
  | ip,name :: rest => do
    match ← lookIn ip name with
    | none => pure none
    | some child => descend child rest

def asParent (name : List UInt8) (ip : Nat) : Fs (Option (Nat × List UInt8)) := do
  inodeLock ip
  let x ← getInode ip
  if x.iMode ≠ fsImodeDir then do
    inodeUnlock ip
    inodePut ip
    pure none
  else do
    inodeUnlock ip
    pure (some (ip,name))

def getRoot : Fs Nat := inodeGet devRoot rootIno

section Fold
variable {ip room : Nat} {list : List (List UInt8)}

theorem walkStep {parent name rest} (fits : name.length < room) (more : ¬ (parent = true ∧ rest = [])) :
    walk parent room ip (name :: rest) = (do
      match ← lookIn ip name with
      | none => pure none
      | some child => walk parent room child rest) := by
  rw [walk,if_neg (not_le.mpr fits),lookIn]
  simp only [bindAssoc]
  refine bind_congr fun _ => bind_congr fun x => ?_
  split
  · simp only [bindAssoc,pureBind]
  · simp only [bindAssoc]
    refine bind_congr fun found => ?_
    cases found with
    | none => simp only [bindAssoc,pureBind]
    | some found => simp only [bindAssoc,pureBind]

theorem walkDescend (fits : ∀ name ∈ list, name.length < room) : walk false room ip list = (do
      match ← descend ip list with
      | none => pure none
      | some found => pure (some (found,[]))) := by
  induction list generalizing ip with
  | nil => rfl
  | cons name list ih =>
    rw [List.forall_mem_cons] at fits
    rw [walkStep fits.1 (fun both => Bool.false_ne_true both.1),descend,bindAssoc]
    refine bind_congr fun found => ?_
    cases found with
    | none => rfl
    | some child => exact ih fits.2

theorem walkParent {last} (fits : ∀ name ∈ list ++ [last], name.length < room) : walk true room ip (list ++ [last]) = (do
      match ← descend ip list with
      | none => pure none
      | some found => asParent last found) := by
  induction list generalizing ip with
  | nil =>
    have below := fits last (by simp)
    rw [List.nil_append,walk,if_neg (not_le.mpr below),descend,pureBind]
    refine bind_congr fun _ => bind_congr fun x => ?_
    simp only [and_self,if_true]
  | cons name list ih =>
    rw [List.cons_append,List.forall_mem_cons] at fits
    have more : ¬ (true = true ∧ list ++ [last] = []) := fun both => List.append_ne_nil_of_right_ne_nil _ (List.cons_ne_nil _ _) both.2
    rw [List.cons_append,walkStep fits.1 more,descend,bindAssoc]
    refine bind_congr fun found => ?_
    cases found with
    | none => rfl
    | some child => exact ih fits.2

theorem descendSnoc {last} : descend ip (list ++ [last]) = (do
    match ← descend ip list with
    | none => pure none
    | some found => lookIn found last) := by
  induction list generalizing ip with
  | nil =>
    rw [List.nil_append,descend,descend,pureBind]
    refine (bind_congr fun found => ?_).trans (bindPure (lookIn ip last))
    cases found <;> rfl
  | cons name list ih =>
    rw [List.cons_append,descend,descend,bindAssoc]
    refine bind_congr fun found => ?_
    cases found with
    | none => rfl
    | some child => exact ih

end Fold

def dirlookup (dp : Nat) (name : List UInt8) : Fs (Option Nat) := do
  inodeLock dp
  let found ← inodeDirlookup dp name
  inodeUnlock dp
  inodePut dp
  pure (found.map Prod.fst)

section Lock
variable {σ : Type} {L : Layer σ Nat Block Fault} {s t : World σ Kernel} {ip : Nat}

theorem relock {a} (ok : run L (inodeLock ip) s = .ok (a,t)) : run L (inodeUnlock ip >>= fun _ => inodeLock ip) t = .ok ((),t) := by
  obtain ⟨busy,valid,ref⟩ := Ownership.lockOwned ok
  obtain ⟨disk,k⟩ := t
  dsimp only at busy valid ref
  have same : (k.withInode ip {k.inode ip with busy := false}).withInode ip {k.inode ip with busy := true} = k := by
    cases slot : k.inode ip with
    | mk inum ref flag valid mode dev rdev nlink size addr =>
      rw [slot] at busy
      obtain rfl : flag = true := busy
      rw [← slot]
      simp [Kernel.withInode]
  have unlock : run L (inodeUnlock ip) ⟨disk,k⟩ = .ok ((),⟨disk,k.withInode ip {k.inode ip with busy := false}⟩) := by
    simp [inodeUnlock,getInode,editInode,kassert,busy]
  have lock : run L (inodeLock ip) ⟨disk,k.withInode ip {k.inode ip with busy := false}⟩ = .ok ((),⟨disk,k⟩) := by
    have run : run L (inodeLock ip) ⟨disk,k.withInode ip {k.inode ip with busy := false}⟩ = .ok ((),⟨disk,
        (k.withInode ip {k.inode ip with busy := false}).withInode ip {k.inode ip with busy := true}⟩) := by
      simp [inodeLock,getInode,editInode,kassert,Kernel.withInode,ref,valid]
    rw [run,same]
  rw [runBind,unlock,followOk,lock]

theorem parentLookup {name} : run L (do
    match ← asParent name ip with
    | none => pure none
    | some (dp,name) => dirlookup dp name) s = run L (lookIn ip name) s := by
  have flat : (do
      match ← asParent name ip with
      | none => pure none
      | some (dp,name) => dirlookup dp name) = inodeLock ip >>= fun _ => getInode ip >>= fun x =>
        if x.iMode ≠ fsImodeDir then (do
          inodeUnlock ip
          inodePut ip
          pure none)
        else inodeUnlock ip >>= fun _ => dirlookup ip name := by
    rw [asParent]
    simp only [bindAssoc]
    refine bind_congr fun _ => bind_congr fun x => ?_
    split
    · simp only [bindAssoc,pureBind]
    · simp only [bindAssoc,pureBind]
  rw [flat,lookIn,runBind,runBind]
  cases locked : run L (inodeLock ip) s with
  | error e => rfl
  | ok r =>
    obtain ⟨a,t⟩ := r
    show run L (ite _ _ _) t = run L (ite _ _ _) t
    split
    · rfl
    · have tail : (inodeUnlock ip >>= fun _ => dirlookup ip name) = (inodeUnlock ip >>= fun _ => inodeLock ip) >>= fun _ => (do
          let found ← inodeDirlookup ip name
          inodeUnlock ip
          inodePut ip
          pure (found.map Prod.fst)) := by
        rw [bindAssoc]
        rfl
      rw [tail,runBind,relock locked,followOk]
      refine congrArg (fun p => run L p t) (bind_congr fun found => ?_)
      cases found <;> rfl

end Lock

theorem namesShort (path : List UInt8) : ∀ name ∈ names path, name.length < fnameMax + 1 := by
  intro name member
  obtain ⟨element,_,rfl⟩ := List.mem_map.mp member
  exact Nat.lt_succ_of_le (List.length_take_le _ _)

section Resolution
variable {path : List UInt8} (absolute : (cstr path).head? = some slash)
include absolute

theorem path2inodeWalk (parent : Bool) (room : Nat) :
    inodePath2inode path parent room = getRoot >>= fun ip => walk parent room ip (names (cstr path)) := by
  rw [inodePath2inode,kassert,if_pos absolute,pureBind,elementsNames (Nat.lt_succ_self _)]
  rfl

theorem nameiDescend : inodeNamei path = getRoot >>= fun ip => descend ip (names (cstr path)) := by
  rw [inodeNamei,path2inodeWalk absolute,bindAssoc]
  refine bind_congr fun ip => ?_
  rw [walkDescend (namesShort _),bindAssoc]
  refine (bind_congr fun found => ?_).trans (bindPure _)
  cases found <;> rfl

theorem parentNone {room} (none : names (cstr path) = []) : inodePath2inode path true room = (do
    let ip ← getRoot
    inodePut ip
    pure .none) := by
  rw [path2inodeWalk absolute,none]
  rfl

theorem parentDescend {room : Nat} {front : List (List UInt8)} {last : List UInt8} (split : names (cstr path) = front ++ [last])
    (fits : ∀ name ∈ names (cstr path), name.length < room) : inodePath2inode path true room = (do
      match ← getRoot >>= fun ip => descend ip front with
      | none => pure none
      | some dp => asParent last dp) := by
  rw [split] at fits
  rw [path2inodeWalk absolute,split,bindAssoc]
  exact bind_congr fun ip => walkParent fits

end Resolution

theorem resolutionFolds {path : List UInt8} (absolute : (cstr path).head? = some slash) :
    (∀ parent room, inodePath2inode path parent room = getRoot >>= fun ip => path2inodeLoop parent room ip (cstr path)) ∧
    inodeNamei path = (getRoot >>= fun ip => descend ip (names (cstr path))) ∧
    (names (cstr path) = [] → ∀ room, inodePath2inode path true room = (do
      let ip ← getRoot
      inodePut ip
      pure none)) ∧
    ∀ front last room, names (cstr path) = front ++ [last] → (∀ name ∈ names (cstr path), name.length < room) →
      inodePath2inode path true room = (do
        match ← getRoot >>= fun ip => descend ip front with
        | none => pure none
        | some dp => asParent last dp) ∧
      ∀ {σ : Type} (L : Layer σ Nat Block Fault) (s : World σ Kernel), run L (inodeNamei path) s = run L (do
        match ← inodePath2inode path true room with
        | none => pure none
        | some (dp,name) => dirlookup dp name) s := by
  refine ⟨fun parent room => ?_,nameiDescend absolute,fun none room => parentNone absolute none,fun front last room split fits => ?_⟩
  · rw [path2inodeWalk absolute]
    exact bind_congr fun ip => loopWalk.symm
  · have parent := parentDescend absolute split fits
    refine ⟨parent,fun L s => ?_⟩
    have whole : (getRoot >>= fun ip => descend ip (front ++ [last])) = (do
        match ← getRoot >>= fun ip => descend ip front with
        | none => pure none
        | some dp => lookIn dp last) := by
      rw [bindAssoc]
      exact bind_congr fun ip => descendSnoc
    rw [parent,nameiDescend absolute,split,whole]
    generalize (getRoot >>= fun ip => descend ip front) = start
    rw [bindAssoc,runBind,runBind]
    cases run L start s with
    | error e => rfl
    | ok r =>
      obtain ⟨found,t⟩ := r
      cases found with
      | none => rfl
      | some dp => exact parentLookup.symm

theorem slashesResolve : (names (cstr [47,47,97,47,98,98,47]) = [[97],[98,98]]) ∧
    inodeNamei [47,47,97,47,98,98,47] = (getRoot >>= fun ip => descend ip [[97],[98,98]]) :=
  ⟨by decide,(resolutionFolds (by decide)).2.1⟩

end TskSw.Paths
