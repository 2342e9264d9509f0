import TskSw.Paths
import TskSw.Mkfs

/-! The array that a caller of the path walk declares for a name. `skip_element` copies at
most `FNAME_MAX` characters of a component and ends them with a zero; `inode_namei` has one
byte more than that, the callers of `inode_nameiparent` have not. -/
namespace TskSw.NameBuffers
open Bytes BlockProgram BlkIo BlkFlat FsLayout FsKernel DataBitmap DataBlocks Bmap Inodes CString Directory FsCalls Paths
open Mkfs (fnameMax)

section Walk
variable {σ : Type} (L : Layer σ Nat Block Fault) (w : World σ Kernel) (path : List UInt8)

structure Stored (i : Nat) (c : List UInt8) : Prop where
  absolute : (cstr path).head? = some slash
  part : (components (cstr path))[i]? = some c
  found : ∃ dp u, run L (getRoot >>= fun ip => descend ip ((names (cstr path)).take i)) w = .ok (some dp,u)

def positions (c : List UInt8) : List Nat := List.range ((c.take fnameMax).length + 1)

def Inside (room : Nat) : Prop := ∀ i c, Stored L w path i c → ∀ p ∈ positions c, p < room

end Walk

section Step
variable {σ : Type} {L : Layer σ Nat Block Fault} {w : World σ Kernel} {path : List UInt8} {parent : Bool} {room ip : Nat}
  {name : List UInt8} {rest list : List (List UInt8)}

theorem positionsInside {c} : (∀ p ∈ positions c, p < room) ↔ (c.take fnameMax).length < room := by
  constructor
  · exact fun inside => inside _ (List.mem_range.mpr (Nat.lt_succ_self _))
  · intro below p member
    have := List.mem_range.mp member
    omega

theorem namesAt {i : Nat} {c : List UInt8} (part : (components path)[i]? = some c) : (names path)[i]? = some (c.take fnameMax) := by
  rw [names,List.getElem?_map,part]
  rfl

theorem walkOverflows {i : Nat} {dp : Nat} {u : World σ Kernel} (large : list[i]? = some name) (long : room ≤ name.length)
    (found : run L (descend ip (list.take i)) w = .ok (some dp,u)) : run L (walk true room ip list) w = .error .outOfBounds := by
  induction list generalizing ip w i with
  | nil => cases large
  | cons first rest ih =>
    by_cases here : room ≤ first.length
    · rw [walk,if_pos here]
      rfl
    cases i with
    | zero =>
      cases large
      exact absurd long here
    | succ i =>
      have more : rest ≠ [] := by
        rintro rfl
        cases large
      rw [walkStep (not_le.mp here) (fun both => more both.2)]
      rw [List.take_succ_cons,descend] at found
      obtain ⟨next,v,looked,found⟩ := runCut found
      rw [runBind,looked,followOk]
      cases next with
      | none => cases found
      | some child => exact ih large found

theorem walkFits {large} (fits : ∀ i name dp u, list[i]? = some name → run L (descend ip (list.take i)) w = .ok (some dp,u) →
    name.length < room ∧ name.length < large) : run L (walk true room ip list) w = run L (walk true large ip list) w := by
  induction list generalizing ip w with
  | nil => rfl
  | cons first rest ih =>
    obtain ⟨here,there⟩ := fits 0 first ip w rfl rfl
    by_cases last : rest = []
    · subst last
      rw [walk,walk,if_neg (not_le.mpr here),if_neg (not_le.mpr there)]
      refine congrArg (fun p => run L p w) (bind_congr fun _ => bind_congr fun x => ?_)
      simp only [and_self,if_true]
    · rw [walkStep here (fun both => last both.2),walkStep there (fun both => last both.2),runBind,runBind]
      cases looked : run L (lookIn ip first) w with
      | error e => rfl
      | ok r =>
        obtain ⟨next,v⟩ := r
        cases next with
        | none => rfl
        | some child =>
          refine ih fun i name dp u part found => fits (i+1) name dp u part ?_
          rw [List.take_succ_cons,descend]
          exact (runBindOk _).mpr ⟨_,_,looked,found⟩

end Step

section Parent
variable {σ : Type} {L : Layer σ Nat Block Fault} {w : World σ Kernel} {path : List UInt8}

theorem insideParent : Inside L w path fnameMax ↔ ∀ i c, Stored L w path i c → c.length < fnameMax := by
  have short : ∀ c : List UInt8, (c.take fnameMax).length < fnameMax ↔ c.length < fnameMax := by
    intro c
    rw [List.length_take]
    omega
  simp only [Inside,positionsInside,short]

theorem parentFits (inside : Inside L w path fnameMax) : run L (inodeNameiparent path) w = run L (inodePath2inode path true (fnameMax+1)) w := by
  by_cases absolute : (cstr path).head? = some slash
  · rw [inodeNameiparent,path2inodeWalk absolute,path2inodeWalk absolute,runBind,runBind]
    cases root : run L getRoot w with
    | error e => rfl
    | ok r =>
      refine walkFits fun i name dp u part found => ?_
      obtain ⟨c,cut,rfl⟩ : ∃ c, (components (cstr path))[i]? = some c ∧ c.take fnameMax = name := by
        rw [names,List.getElem?_map] at part
        exact Option.map_eq_some_iff.mp part
      have stored : Stored L w path i c := ⟨absolute,cut,dp,u,(runBindOk L).mpr ⟨_,_,root,found⟩⟩
      have below := positionsInside.mp (inside i c stored)
      exact ⟨below,Nat.lt_succ_of_lt below⟩
  · have stops : ∀ room, run L (inodePath2inode path true room) w = .error .assertion := by
      intro room
      rw [inodePath2inode,runBind,kassert,if_neg absolute]
      rfl
    rw [inodeNameiparent,stops,stops]

theorem parentOverflows (outside : ¬ Inside L w path fnameMax) : run L (inodeNameiparent path) w = .error .outOfBounds := by
  simp only [Inside,positionsInside,not_forall,not_lt] at outside
  obtain ⟨i,c,stored,long⟩ := outside
  obtain ⟨dp,u,found⟩ := stored.found
  obtain ⟨ip,v,root,found⟩ := runCut found
  rw [inodeNameiparent,path2inodeWalk stored.absolute,runBind,root,followOk]
  exact walkOverflows (namesAt stored.part) long found

end Parent

theorem namesFit {σ : Type} (L : Layer σ Nat Block Fault) (w : World σ Kernel) (path : List UInt8) :
    Inside L w path (fnameMax+1) ∧ (Inside L w path fnameMax ↔ ∀ i c, Stored L w path i c → c.length < fnameMax) ∧
    (Inside L w path fnameMax → run L (inodeNameiparent path) w = run L (inodePath2inode path true (fnameMax+1)) w) ∧
    (¬ Inside L w path fnameMax →
      (∀ omode, omode &&& oCreate ≠ 0 → run L (fsOpen path omode) w = .error .outOfBounds) ∧ run L (fsUnlink path) w = .error .outOfBounds ∧
      ∀ old ip u v, run L (linkSource old) v = .ok (some ip,u) →
        run L (do editInode ip (fun x => {x with iNlink := x.iNlink + 1}); inodeUnlock ip; inodePut ip) u = .ok ((),w) →
        run L (fsLink old path) v = .error .outOfBounds) := by
  refine ⟨fun i c _ => positionsInside.mpr (Nat.lt_succ_of_le (List.length_take_le _ _)),insideParent,parentFits,fun outside => ?_⟩
  have stops := parentOverflows outside
  refine ⟨fun omode creates => ?_,?_,fun old ip u v source given => ?_⟩
  · rw [fsOpen,runBind,openSource,if_pos creates,create,runBind,stops]
    rfl
  · rw [fsUnlink,runBind,stops]
    rfl
  · obtain ⟨_,_,linked,given⟩ := runCut given
    obtain ⟨_,_,unlocked,given⟩ := runCut given
    rw [fsLink,runBind,source,followOk]
    simp only [linkInode,runBind,linked,unlocked,given,stops,followOk,followError]

def longName : List UInt8 := slash :: List.replicate fnameMax 97

theorem longNameOverflows : ¬ Inside cacheLayer ⟨smallStore,bootKernel [] []⟩ longName fnameMax ∧
    fault (run cacheLayer (fsUnlink longName) ⟨smallStore,bootKernel [] []⟩) = some .outOfBounds := by
  constructor
  · intro inside
    have root : result (run cacheLayer getRoot ⟨smallStore,bootKernel [] []⟩) = some 0 := by
      rw [smallStore,(smallRun (by decide) _ _).1]
      decide +kernel
    obtain ⟨u,root⟩ := resultOk root
    have part : (components (cstr longName))[0]? = some (List.replicate fnameMax 97) := by decide +kernel
    have stored : Stored cacheLayer ⟨smallStore,bootKernel [] []⟩ longName 0 (List.replicate fnameMax 97) :=
      ⟨by decide +kernel,part,0,u,(runBindOk _).mpr ⟨_,_,root,rfl⟩⟩
    exact absurd (inside 0 _ stored fnameMax (by decide +kernel)) (Nat.lt_irrefl _)
  · rw [smallStore,(smallRun (by decide) _ _).2]
    decide +kernel

end TskSw.NameBuffers
