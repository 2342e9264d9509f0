import TskSw.Inodes

/-! `inode_truncate` of `fs/inode.c`. What it passes to `release_data_block` is known from
the inode and its index blocks beforehand; whether the calls return depends on the bits
those numbers have in the bitmap. -/
namespace TskSw.Truncate
open Bytes BlockProgram BlkIo BlkFlat FsLayout FsKernel DataBitmap DataBlocks Bmap Inodes

-- Bit `b` lies in the bitmaps or the inodes. `release_data_block` counts from block 0, so the
-- last data blocks can leave the bitmap.
def Covered (sb : Superblock) (b : Nat) : Prop := mapBlock sb.bitmapStart b < tablesEnd sb

def Outside (sb : Superblock) (n : Nat) : Prop := n = 0 ∨ tablesEnd sb ≤ n

def freeOne (sb : Superblock) (b : Nat) (t : Disk) : Except Fault Disk :=
  if chunksPerBlock ≤ (b%bitsPerBlock)/chunkBytes then .error .outOfBounds
  else if mapBit t.view sb.bitmapStart b then .ok (clearMapBit t sb.bitmapStart b)
  else .error .assertion

def freeAll (sb : Superblock) : List Nat → Disk → Except Fault Disk
  | [],t => .ok t
  | b :: rest,t => do
      let u ← freeOne sb b t
      freeAll sb rest u

def logged (k : Kernel) (list : List Nat) : Kernel := {k with released := list.reverse ++ k.released}

variable {x : Inode} {b i rest j : Nat} {list : List Nat} {view : Nat → Block}

variable {sb : Superblock} {t u : Disk} {k : Kernel} {dev : BitVec 64} {ip : Nat}

section Tables
variable {n : Nat}

theorem mapLow (h : Tables sb t) (b) : 2 ≤ mapBlock sb.bitmapStart b :=
  (tablesLong h).1.trans (Nat.le_add_right _ _)

theorem mapOutside (h : Tables sb t) (covered : Covered sb b) (outside : Outside sb n) : mapBlock sb.bitmapStart b ≠ n := by
  have := mapLow h b
  unfold Covered at covered
  rcases outside with zero | high <;> omega

theorem tablesClear (h : Tables sb t) (b : Nat) : Tables sb (clearMapBit t sb.bitmapStart b) := by
  refine ⟨h.layout,?_,h.free⟩
  have same := h.super
  subst same
  exact clearedSuper h.layout b

theorem superOutside (h : Tables sb t) (outside : Outside sb n) : superBlockBlkNo ≠ n := by
  have := tablesLong h
  rw [superBlockBlkNo]
  rcases outside with zero | high <;> omega

theorem tablesEdit (h : Tables sb t) (outside : Outside sb n) (d : Block) : Tables sb (t.edit n d) := by
  refine ⟨h.layout,h.super,fun m low high => ?_⟩
  have apart : m ≠ n := by rcases outside with zero | above <;> omega
  simpa [Disk.edit,apart] using h.free m low high

theorem tablesLeave (h : Tables sb t) (outside : Outside sb n) (d : Block) : Tables sb (leave t n d) := by
  refine ⟨h.layout,?_,h.free⟩
  rw [superOf,leaveView (superOutside h outside)]
  exact h.super

theorem leaveBit (h : Tables sb t) (outside : Outside sb n) (d : Block) (covered : Covered sb b) :
    mapBit (leave t n d).view sb.bitmapStart b = mapBit t.view sb.bitmapStart b :=
  congrArg (fun d => bitAt d (b%bitsPerBlock)) (leaveView (mapOutside h covered outside) d)

theorem runFreeOne (h : Tables sb t) (root : dev.toNat = rootDev) (covered : Covered sb b) :
    run diskLayer (releaseDataBlock dev b) ⟨t,k⟩ =
      onDisk (freeOne sb b t) (logged k [b]) (fun s => .ok ((),s)) := by
  have same := h.super
  subst same
  rw [runReleaseData root (tablesSuper h) (tablesIdle h ((mapLow h b).trans' (by decide)) covered)]
  unfold freeOne
  split
  · rfl
  · split <;> rfl

theorem freeOneOk : freeOne sb b t = .ok u ↔
    reachable b ∧ mapBit t.view sb.bitmapStart b = true ∧ u = clearMapBit t sb.bitmapStart b := by
  unfold freeOne reachable
  split
  · simp
    omega
  · split
    · rename_i inside bit
      simp [bit,Nat.not_le.mp inside,eq_comm]
    · rename_i bit
      simp [bit]

theorem freeOneEdit (d) : freeOne sb b (t.edit n d) = (freeOne sb b t).map (fun u => u.edit n d) := by
  unfold freeOne
  split
  · rfl
  · change (if mapBit t.view sb.bitmapStart b = true then _ else _) = _
    split <;> rfl

end Tables

structure Freed (sb : Superblock) (list : List Nat) (t u : Disk) : Prop where
  tables : Tables sb u
  held : u.held = t.held
  size : u.size = t.size
  view : ∀ n, Outside sb n → n ∉ list → u.view n = t.view n
  bits : ∀ b, Covered sb b → mapBit u.view sb.bitmapStart b = (!decide (b ∈ list) && mapBit t.view sb.bitmapStart b)
  covered : ∀ b ∈ list, Covered sb b
  was : ∀ b ∈ list, reachable b ∧ mapBit t.view sb.bitmapStart b = true
  nodup : list.Nodup

section Lists
variable {v : Disk}

theorem freedNil (h : Tables sb t) : Freed sb [] t t := by
  refine ⟨h,rfl,rfl,fun _ _ _ => rfl,?_,?_,?_,List.nodup_nil⟩ <;> simp

theorem freedOne (h : Tables sb t) {b} (covered : Covered sb b) (ok : freeOne sb b t = .ok u) : Freed sb [b] t u := by
  obtain ⟨reach,bit,rfl⟩ := freeOneOk.mp ok
  refine ⟨tablesClear h b,rfl,rfl,?_,?_,by simpa using covered,?_,by simp⟩
  · intro n outside _
    exact clearMapView (mapOutside h covered outside).symm
  · intro c _
    rw [clearMapBits reach]
    simp [eq_comm]
  · simp [reach,bit]

theorem freedTrans {l m : List Nat} (first : Freed sb l t u) (second : Freed sb m u v) : Freed sb (l ++ m) t v := by
  have fresh : ∀ b ∈ m, b ∉ l ∧ mapBit t.view sb.bitmapStart b = true := by
    intro b mem
    have bit := (second.was b mem).2
    rw [first.bits b (second.covered b mem)] at bit
    simpa using bit
  refine ⟨second.tables,second.held.trans first.held,second.size.trans first.size,?_,?_,?_,?_,?_⟩
  · intro n outside apart
    rw [List.mem_append,not_or] at apart
    exact (second.view n outside apart.2).trans (first.view n outside apart.1)
  · intro b covered
    rw [second.bits b covered,first.bits b covered]
    by_cases left : b ∈ l <;> by_cases right : b ∈ m <;> simp [left,right]
  · intro b mem
    exact (List.mem_append.mp mem).elim (first.covered b) (second.covered b)
  · intro b mem
    rcases List.mem_append.mp mem with left | right
    · exact first.was b left
    · exact ⟨(second.was b right).1,(fresh b right).2⟩
  · exact List.nodup_append.mpr ⟨first.nodup,second.nodup,fun b left c right same => (fresh c right).1 (same ▸ left)⟩

theorem freedLeave (h : Tables sb t) {b d} (outside : Outside sb b)
    (freed : Freed sb [b] (leave t b d) u) : Freed sb [b] t u := by
  refine ⟨freed.tables,freed.held,freed.size,?_,?_,freed.covered,?_,freed.nodup⟩
  · intro n away apart
    rw [freed.view n away apart,leaveView (List.ne_of_not_mem_cons apart)]
  · intro c covered
    rw [freed.bits c covered,leaveBit h outside d covered]
  · intro c mem
    rw [← leaveBit h outside d (freed.covered c mem)]
    exact freed.was c mem

theorem freedAll (h : Tables sb t) (covered : ∀ b ∈ list, Covered sb b) (ok : freeAll sb list t = .ok u) : Freed sb list t u := by
  induction list generalizing t with
  | nil =>
    cases ok
    exact freedNil h
  | cons b rest ih =>
    obtain ⟨v,first,others⟩ := exceptBindOk.mp ok
    have one := freedOne h (covered b List.mem_cons_self) first
    exact freedTrans one (ih one.tables (fun c mem => covered c (List.mem_cons_of_mem _ mem)) others)

theorem freeAllRuns (h : Tables sb t) (covered : ∀ b ∈ list, Covered sb b) (nodup : list.Nodup)
    (was : ∀ b ∈ list, reachable b ∧ mapBit t.view sb.bitmapStart b = true) : ∃ u, freeAll sb list t = .ok u := by
  induction list generalizing t with
  | nil => exact ⟨t,rfl⟩
  | cons b rest ih =>
    obtain ⟨fresh,nodup⟩ := List.nodup_cons.mp nodup
    have here := was b List.mem_cons_self
    have first : freeOne sb b t = .ok (clearMapBit t sb.bitmapStart b) := freeOneOk.mpr ⟨here.1,here.2,rfl⟩
    have one := freedOne h (covered b List.mem_cons_self) first
    obtain ⟨u,others⟩ := ih one.tables (fun c mem => covered c (List.mem_cons_of_mem _ mem)) nodup (by
      intro c mem
      have apart : c ≠ b := fun e => fresh (e ▸ mem)
      rw [one.bits c (covered c (List.mem_cons_of_mem _ mem))]
      simpa [apart] using was c (List.mem_cons_of_mem _ mem))
    exact ⟨u,exceptBindOk.mpr ⟨_,first,others⟩⟩

end Lists

def nonzero (f : Nat → Nat) (i rest : Nat) : List Nat := ((List.range' i rest).map f).filter (fun b => decide (b ≠ 0))

def slot (x : Inode) (i : Nat) : Nat := (addrAt x.iAddr i).toNat

def entry (d : Block) (j : Nat) : Nat := (chunk d j).toNat

theorem nonzeroSucc (f : Nat → Nat) (i rest) :
    nonzero f i (rest+1) = if f i = 0 then nonzero f (i+1) rest else f i :: nonzero f (i+1) rest := by
  unfold nonzero
  rw [List.range'_succ,List.map_cons,List.filter_cons]
  by_cases zero : f i = 0 <;> simp [zero]

theorem nonzeroCongr {f g i rest} (same : ∀ j, i ≤ j → f j = g j) : nonzero f i rest = nonzero g i rest := by
  unfold nonzero
  congr 1
  refine List.map_congr_left fun j mem => same j ?_
  simp only [List.mem_range'_1] at mem
  exact mem.1

theorem slotZero : addrAt x.iAddr i = 0 ↔ slot x i = 0 := by
  unfold slot
  constructor
  · intro zero
    rw [zero]
    rfl
  · intro zero
    exact BitVec.eq_of_toNat_eq (by simpa using zero)

def cleared (x : Inode) (i rest : Nat) : Inode :=
  {x with iAddr := fun k => if i ≤ k.1 ∧ k.1 < i + rest then 0 else x.iAddr k}

theorem clearedNone (x i) : cleared x i 0 = x := by
  have never : ∀ k : Nat, ¬ (i ≤ k ∧ k < i) := by omega
  simp [cleared,never]

theorem clearedSkip {x i} (zero : slot x i = 0) (rest : Nat) : cleared x (i+1) rest = cleared x i (rest+1) := by
  unfold cleared
  congr 1
  funext k
  by_cases here : k.1 = i
  · have none : x.iAddr k = 0 := by
      have := slotZero.mpr zero
      rw [addrAt,dif_pos (here ▸ k.2)] at this
      rw [← this]
      exact congrArg x.iAddr (Fin.ext here)
    simp [none]
  · have same : (i + 1 ≤ k.1 ∧ k.1 < i + 1 + rest) ↔ (i ≤ k.1 ∧ k.1 < i + (rest + 1)) := by omega
    simp only [same]

theorem clearedStep {x i} (h : i < fsIaddrNr) (rest) :
    cleared (x.withAddr ⟨i,h⟩ 0) (i+1) rest = cleared x i (rest+1) := by
  unfold cleared Inode.withAddr
  congr 1
  funext k
  by_cases here : k = ⟨i,h⟩
  · subst here
    simp
  · have apart : k.1 ≠ i := fun e => here (Fin.ext e)
    have same : (i + 1 ≤ k.1 ∧ k.1 < i + 1 + rest) ↔ (i ≤ k.1 ∧ k.1 < i + (rest + 1)) := by omega
    simp only [same,Function.update_of_ne here]

theorem slotCleared {x i rest j} (outside : j < i ∨ i + rest ≤ j) : slot (cleared x i rest) j = slot x j := by
  unfold slot addrAt cleared
  split
  · have never : ¬ (i ≤ j ∧ j < i + rest) := by omega
    simp [never]
  · rfl

theorem loggedAppend (k l m) : logged (logged k l) m = logged k (l ++ m) := by
  simp [logged]

theorem withSame (k : Kernel) (ip : Nat) : k.withInode ip (k.inode ip) = k := by
  simp [Kernel.withInode]

theorem withTwice (k : Kernel) (ip : Nat) (x y : Inode) : (k.withInode ip x).withInode ip y = k.withInode ip y := by
  simp [Kernel.withInode]

@[simp] theorem withGet (k : Kernel) (ip : Nat) (x : Inode) : (k.withInode ip x).inode ip = x := by
  simp [Kernel.withInode]

theorem loggedWith (k : Kernel) (ip : Nat) (x : Inode) (l : List Nat) : logged (k.withInode ip x) l = (logged k l).withInode ip x := rfl

section Runs

theorem runSetAddr {i} (inside : i < fsIaddrNr) :
    run diskLayer (setAddr ip i 0) ⟨t,k⟩ = .ok ((),⟨t,k.withInode ip ((k.inode ip).withAddr ⟨i,inside⟩ 0)⟩) := by
  simp [setAddr,inside,editInode]

theorem runFreeDirect (h : Tables sb t) (root : (k.inode ip).iDev.toNat = rootDev) (inside : i + rest ≤ fsIaddrNr)
    (covered : ∀ b ∈ nonzero (slot (k.inode ip)) i rest, Covered sb b) :
    run diskLayer (freeDirect ip rest i) ⟨t,k⟩ =
      onDisk (freeAll sb (nonzero (slot (k.inode ip)) i rest) t)
        ((logged k (nonzero (slot (k.inode ip)) i rest)).withInode ip (cleared (k.inode ip) i rest)) (fun s => .ok ((),s)) := by
  induction rest generalizing t k i with
  | zero =>
    rw [clearedNone]
    exact congrArg (fun m => Except.ok ((),(⟨t,m⟩ : State))) (withSame k ip).symm
  | succ rest ih =>
    rw [nonzeroSucc] at covered ⊢
    simp only [freeDirect,getInode,runBind,runMemory,runPure,followOk]
    by_cases zero : slot (k.inode ip) i = 0
    · rw [if_neg (not_not.mpr (slotZero.mpr zero))]
      rw [if_pos zero] at covered ⊢
      rw [ih h root (by omega) covered,clearedSkip zero]
    · rw [if_pos (fun none => zero (slotZero.mp none))]
      rw [if_neg zero] at covered ⊢
      have here := covered _ List.mem_cons_self
      have first := runFreeOne (k := k) h root here
      unfold slot at first
      simp only [runBind,first,freeAll]
      cases one : freeOne sb (slot (k.inode ip) i) t with
      | error e =>
        unfold slot at one
        rw [one]
        rfl
      | ok v =>
        have slots : nonzero (slot ((k.inode ip).withAddr ⟨i,by omega⟩ 0)) (i+1) rest = nonzero (slot (k.inode ip)) (i+1) rest := by
          refine nonzeroCongr fun j above => ?_
          have same : slot (cleared (k.inode ip) i 1) j = slot (k.inode ip) j := slotCleared (by omega)
          rw [← same,← clearedStep (by omega),clearedNone]
        have later := ih (k := (logged k [slot (k.inode ip) i]).withInode ip ((k.inode ip).withAddr ⟨i,by omega⟩ 0))
          (freedOne h here one).tables (by rw [withGet]; exact root) (i := i+1) (by omega)
          (by
            rw [withGet,slots]
            exact fun b mem => covered b (List.mem_cons_of_mem _ mem))
        rw [withGet,slots,clearedStep,loggedWith,withTwice,loggedAppend] at later
        unfold slot at one
        rw [one]
        simp only [onDiskOk,followOk,runSetAddr (show i < fsIaddrNr by omega)]
        exact later

end Runs

def zeroed : Nat → Nat → Block → Block
  | 0,_,d => d
  | rest+1,j,d => zeroed rest (j+1) (if chunk d j = 0 then d else setChunk d j 0)

def entries (d : Block) : List Nat := nonzero (entry d) 0 iaddrsPerBlock

def indexList (view : Nat → Block) (x : Inode) (i : Nat) : List Nat :=
  (if slot x (fsIaddrInDirectMin + i) = 0 then [] else entries (view (slot x (fsIaddrInDirectMin + i)))) ++
    [slot x (fsIaddrInDirectMin + i)]

def freeIndex (sb : Superblock) (blk : Nat) (t : Disk) : Except Fault Disk :=
  if blk = 0 then freeOne sb blk t
  else do
    let u ← freeAll sb (entries (t.view blk)) t
    freeOne sb blk (leave u blk (zeroed iaddrsPerBlock 0 (t.view blk)))

section Index
variable {blk : Nat}

theorem runFreeEntries (h : Tables sb t) (root : dev.toNat = rootDev) (outside : Outside sb blk) {rest j d}
    (inside : j + rest ≤ iaddrsPerBlock) (covered : ∀ b ∈ nonzero (entry d) j rest, Covered sb b) :
    run diskLayer (freeEntries dev blk rest j) ⟨t.edit blk d,k⟩ =
      onDisk (freeAll sb (nonzero (entry d) j rest) t) (logged k (nonzero (entry d) j rest))
        (fun s => .ok ((),⟨s.disk.edit blk (zeroed rest j d),s.mem⟩)) := by
  induction rest generalizing t k j d with
  | zero => rfl
  | succ rest ih =>
    have zeroChunk : chunk d j = 0 ↔ entry d j = 0 := by
      rw [entry,← BitVec.toNat_inj]
      rfl
    rw [nonzeroSucc] at covered ⊢
    simp only [freeEntries,runBind,runData,followOk,zeroed]
    by_cases zero : entry d j = 0
    · rw [if_neg (not_not.mpr (zeroChunk.mpr zero)),if_pos (zeroChunk.mpr zero)]
      rw [if_pos zero] at covered ⊢
      exact ih h (by omega) covered
    · rw [if_pos (fun none => zero (zeroChunk.mp none)),if_neg (fun none => zero (zeroChunk.mp none))]
      rw [if_neg zero] at covered ⊢
      have here := covered _ List.mem_cons_self
      have first := runFreeOne (k := k) (tablesEdit h outside d) root here
      rw [freeOneEdit] at first
      unfold entry at first
      simp only [runBind,first,freeAll]
      cases one : freeOne sb (entry d j) t with
      | error e =>
        unfold entry at one
        rw [one]
        rfl
      | ok v =>
        have others : nonzero (entry (setChunk d j 0)) (j+1) rest = nonzero (entry d) (j+1) rest := by
          refine nonzeroCongr fun l above => ?_
          unfold entry
          rw [chunkSetOther]
          omega
        have later := ih (k := logged k [entry d j]) (d := setChunk d j 0) (freedOne h here one).tables (j := j+1) (by omega)
          (by
            rw [others]
            exact fun b mem => covered b (List.mem_cons_of_mem _ mem))
        rw [others,loggedAppend] at later
        unfold entry at one
        rw [one]
        simp only [Except.map,onDiskOk,followOk,runData,runSet]
        exact later

theorem runFreeIndex (h : Tables sb t) (root : (k.inode ip).iDev.toNat = rootDev) {i} (inside : i < fsIaddrInDirectNr)
    (idle : slot (k.inode ip) (fsIaddrInDirectMin + i) ≠ 0 → Idle t (slot (k.inode ip) (fsIaddrInDirectMin + i)) ∧
      Outside sb (slot (k.inode ip) (fsIaddrInDirectMin + i)))
    (covered : ∀ b ∈ indexList t.view (k.inode ip) i, Covered sb b) :
    run diskLayer (freeIndexBlock ip i) ⟨t,k⟩ =
      onDisk (freeIndex sb (slot (k.inode ip) (fsIaddrInDirectMin + i)) t)
        ((logged k (indexList t.view (k.inode ip) i)).withInode ip (cleared (k.inode ip) (fsIaddrInDirectMin + i) 1))
        (fun s => .ok ((),s)) := by
  have room : fsIaddrInDirectMin + i < fsIaddrNr := by
    simp only [fsIaddrInDirectNr,fsIaddrInDirectMin,fsIaddrDirectNr,fsIaddrNr] at inside ⊢
    omega
  have wiped := clearedStep (x := k.inode ip) room 0
  rw [clearedNone] at wiped
  have named : (addrAt (k.inode ip).iAddr (fsIaddrInDirectMin + i)).toNat = slot (k.inode ip) (fsIaddrInDirectMin + i) := rfl
  have here : Covered sb (slot (k.inode ip) (fsIaddrInDirectMin + i)) := covered _ (by simp [indexList])
  simp only [freeIndexBlock,getInode,runBind,runMemory,runPure,followOk,named]
  by_cases zero : slot (k.inode ip) (fsIaddrInDirectMin + i) = 0
  · simp only [ne_eq,zero,not_true_eq_false,if_false,freeIndex,if_true,indexList,List.nil_append] at here ⊢
    rw [runBind,runFreeOne h root here]
    cases freeOne sb 0 t with
    | error e => rfl
    | ok v =>
      simp only [onDiskOk,followOk,runSetAddr room]
      exact congrArg (fun x => Except.ok ((),(⟨v,(logged k [0]).withInode ip x⟩ : State))) wiped
  · obtain ⟨ready,outside⟩ := idle zero
    simp only [ne_eq,zero,not_false_eq_true,if_true,if_false,freeIndex,indexList,entries] at covered ⊢
    have walk := runFreeEntries (k := k) h root outside (Nat.le_of_eq (Nat.zero_add iaddrsPerBlock))
      (fun b mem => covered b (List.mem_append_left _ mem))
    simp only [runBind,runBread root ready,followOk,walk]
    cases all : freeAll sb (nonzero (entry (t.view (slot (k.inode ip) (fsIaddrInDirectMin + i)))) 0 iaddrsPerBlock) t with
    | error e => rfl
    | ok v =>
      have freed := freedAll h (fun b mem => covered b (List.mem_append_left _ mem)) all
      have free : v.held (slot (k.inode ip) (fsIaddrInDirectMin + i)) = none := by
        rw [freed.held]
        exact ready.free
      simp only [onDiskOk,followOk,runLeave free,runFreeOne (tablesLeave freed.tables outside _) root here,
        bind,Except.bind]
      cases freeOne sb _ _ with
      | error e => rfl
      | ok w =>
        simp only [onDiskOk,followOk,runSetAddr room]
        rw [loggedAppend]
        exact congrArg (fun x => Except.ok ((),(⟨w,(logged k _).withInode ip x⟩ : State))) wiped

theorem freedIndex (h : Tables sb t) (idle : blk ≠ 0 → Outside sb blk)
    (covered : ∀ b ∈ (if blk = 0 then [] else entries (t.view blk)) ++ [blk], Covered sb b)
    (ok : freeIndex sb blk t = .ok u) : Freed sb ((if blk = 0 then [] else entries (t.view blk)) ++ [blk]) t u := by
  have here : Covered sb blk := covered _ (by simp)
  unfold freeIndex at ok
  split at ok
  · rename_i zero
    rw [if_pos zero]
    exact freedOne h here ok
  · rename_i some
    rw [if_neg some] at covered ⊢
    obtain ⟨v,all,one⟩ := exceptBindOk.mp ok
    have first := freedAll h (fun b mem => covered b (List.mem_append_left _ mem)) all
    exact freedTrans first (freedLeave first.tables (idle some) (freedOne (tablesLeave first.tables (idle some) _) here one))

theorem freeIndexRuns (h : Tables sb t) (idle : blk ≠ 0 → Outside sb blk)
    (covered : ∀ b ∈ (if blk = 0 then [] else entries (t.view blk)) ++ [blk], Covered sb b)
    (nodup : ((if blk = 0 then [] else entries (t.view blk)) ++ [blk]).Nodup)
    (was : ∀ b ∈ (if blk = 0 then [] else entries (t.view blk)) ++ [blk], reachable b ∧ mapBit t.view sb.bitmapStart b = true) :
    ∃ u, freeIndex sb blk t = .ok u := by
  have here := was blk (by simp)
  unfold freeIndex
  split
  · exact ⟨_,freeOneOk.mpr ⟨here.1,here.2,rfl⟩⟩
  · rename_i some
    rw [if_neg some] at covered nodup was
    obtain ⟨v,all⟩ := freeAllRuns h (fun b mem => covered b (List.mem_append_left _ mem)) (List.Nodup.of_append_left nodup)
      (fun b mem => was b (List.mem_append_left _ mem))
    have first := freedAll h (fun b mem => covered b (List.mem_append_left _ mem)) all
    have inside : Covered sb blk := covered blk (by simp)
    have fresh : blk ∉ entries (t.view blk) := fun mem => (List.nodup_append.mp nodup).2.2 blk mem blk (by simp) rfl
    have bit : mapBit (leave v blk (zeroed iaddrsPerBlock 0 (t.view blk))).view sb.bitmapStart blk = true := by
      rw [leaveBit first.tables (idle some) _ inside,first.bits blk inside]
      simpa [fresh] using here.2
    exact ⟨_,exceptBindOk.mpr ⟨v,all,freeOneOk.mpr ⟨here.1,bit,rfl⟩⟩⟩

end Index

def indirectList (view : Nat → Block) (x : Inode) (i rest : Nat) : List Nat :=
  (List.range' i rest).flatMap (indexList view x)

structure Indexed (sb : Superblock) (t : Disk) (x : Inode) (i rest : Nat) : Prop where
  root : x.iDev.toNat = rootDev
  inside : i + rest ≤ fsIaddrInDirectNr
  idle : ∀ j, i ≤ j → j < i + rest → slot x (fsIaddrInDirectMin + j) ≠ 0 →
    Idle t (slot x (fsIaddrInDirectMin + j)) ∧ Outside sb (slot x (fsIaddrInDirectMin + j))
  covered : ∀ j, i ≤ j → j < i + rest → ∀ b ∈ indexList t.view x j, Covered sb b
  apart : ∀ j l, i ≤ j → j < l → l < i + rest → slot x (fsIaddrInDirectMin + l) ≠ 0 →
    slot x (fsIaddrInDirectMin + l) ∉ indexList t.view x j

section Indirect

theorem indirectSucc (view : Nat → Block) (x i rest) :
    indirectList view x i (rest+1) = indexList view x i ++ indirectList view x (i+1) rest := by
  rw [indirectList,List.range'_succ,List.flatMap_cons]
  rfl

theorem indexedTail (h : Indexed sb t x i (rest+1)) : Indexed sb t x (i+1) rest := by
  have := h.inside
  exact ⟨h.root,by omega,fun j low high => h.idle j (by omega) (by omega),fun j low high => h.covered j (by omega) (by omega),
    fun j l low less high => h.apart j l (by omega) less (by omega)⟩

structure Undisturbed (list : List Nat) (x y : Inode) (i rest : Nat) : Prop where
  dev : y.iDev = x.iDev
  slots : ∀ j, i ≤ j → j < i + rest → slot y (fsIaddrInDirectMin + j) = slot x (fsIaddrInDirectMin + j)
  apart : ∀ j, i ≤ j → j < i + rest → slot x (fsIaddrInDirectMin + j) ≠ 0 → slot x (fsIaddrInDirectMin + j) ∉ list

theorem indexListMove {list y} (h : Indexed sb t x i rest) (freed : Freed sb list t u)
    (kept : Undisturbed list x y i rest) {j} (low : i ≤ j) (high : j < i + rest) :
    indexList u.view y j = indexList t.view x j := by
  unfold indexList
  rw [kept.slots j low high]
  by_cases zero : slot x (fsIaddrInDirectMin + j) = 0
  · rw [if_pos zero,if_pos zero]
  · rw [if_neg zero,if_neg zero,freed.view _ (h.idle j low high zero).2 (kept.apart j low high zero)]

theorem indexedMove {y : Inode} (h : Indexed sb t x i rest) (freed : Freed sb list t u)
    (kept : Undisturbed list x y i rest) : Indexed sb u y i rest := by
  refine ⟨kept.dev ▸ h.root,h.inside,?_,?_,?_⟩
  · intro j low high some
    rw [kept.slots j low high] at some ⊢
    obtain ⟨idle,outside⟩ := h.idle j low high some
    exact ⟨⟨freed.held ▸ idle.free,freed.size ▸ idle.inside⟩,outside⟩
  · intro j low high
    rw [indexListMove h freed kept low high]
    exact h.covered j low high
  · intro j l low less high some
    rw [kept.slots l (by omega) high] at some ⊢
    rw [indexListMove h freed kept low (by omega)]
    exact h.apart j l low less high some

theorem indirectMove {list y} (h : Indexed sb t x i rest) (freed : Freed sb list t u)
    (kept : Undisturbed list x y i rest) : indirectList u.view y i rest = indirectList t.view x i rest := by
  unfold indirectList
  refine List.flatMap_congr fun j mem => ?_
  simp only [List.mem_range'_1] at mem
  exact indexListMove h freed kept mem.1 mem.2

theorem keptStep (h : Indexed sb t x i (rest+1)) :
    Undisturbed (indexList t.view x i) x (cleared x (fsIaddrInDirectMin + i) 1) (i+1) rest :=
  ⟨rfl,fun j low _ => slotCleared (by omega),fun j low high => h.apart i j (Nat.le_refl i) low (by omega)⟩

theorem clearedAppend (x i m n) : cleared (cleared x i m) (i+m) n = cleared x i (m+n) := by
  unfold cleared
  congr 1
  funext k
  by_cases low : i ≤ k.1 ∧ k.1 < i + m
  · have whole : i ≤ k.1 ∧ k.1 < i + (m + n) := by omega
    simp [low,whole]
  · have same : (i + m ≤ k.1 ∧ k.1 < i + m + n) ↔ (i ≤ k.1 ∧ k.1 < i + (m + n)) := by omega
    simp only [low,if_false,same]

theorem indirectMem (k : Kernel) (l m : List Nat) (i : Nat) :
    (logged ((logged k l).withInode ip (cleared x (fsIaddrInDirectMin + i) 1)) m).withInode ip
      (cleared (cleared x (fsIaddrInDirectMin + i) 1) (fsIaddrInDirectMin + (i+1)) rest) =
      (logged k (l ++ m)).withInode ip (cleared x (fsIaddrInDirectMin + i) (rest+1)) := by
  rw [loggedWith,withTwice,loggedAppend,← Nat.add_assoc,clearedAppend,Nat.add_comm 1]

theorem runFreeIndirectOk {v : State} (h : Tables sb t) (index : Indexed sb t (k.inode ip) i rest)
    (ok : run diskLayer (freeIndirect ip rest i) ⟨t,k⟩ = .ok ((),v)) :
    Freed sb (indirectList t.view (k.inode ip) i rest) t v.disk ∧
      v.mem = (logged k (indirectList t.view (k.inode ip) i rest)).withInode ip (cleared (k.inode ip) (fsIaddrInDirectMin + i) rest) := by
  induction rest generalizing t k i with
  | zero =>
    cases ok
    exact ⟨freedNil h,by rw [clearedNone]; exact (withSame k ip).symm⟩
  | succ rest ih =>
    have idle := index.idle i (Nat.le_refl i) (by omega)
    have covered := index.covered i (Nat.le_refl i) (by omega)
    rw [freeIndirect,runBind,runFreeIndex h index.root (by have := index.inside; omega) idle covered] at ok
    cases one : freeIndex sb (slot (k.inode ip) (fsIaddrInDirectMin + i)) t with
    | error e => simp [one] at ok
    | ok u =>
      have first : Freed sb (indexList t.view (k.inode ip) i) t u := freedIndex h (fun some => (idle some).2) covered one
      rw [one,onDiskOk,followOk] at ok
      have later := ih first.tables (by rw [withGet]; exact indexedMove (indexedTail index) first (keptStep index)) ok
      rw [withGet,indirectMove (indexedTail index) first (keptStep index),indirectMem] at later
      rw [indirectSucc]
      exact ⟨freedTrans first later.1,later.2⟩

theorem freeIndirectRuns (h : Tables sb t) (index : Indexed sb t (k.inode ip) i rest)
    (nodup : (indirectList t.view (k.inode ip) i rest).Nodup)
    (was : ∀ b ∈ indirectList t.view (k.inode ip) i rest, reachable b ∧ mapBit t.view sb.bitmapStart b = true) :
    ∃ v, run diskLayer (freeIndirect ip rest i) ⟨t,k⟩ = .ok ((),v) := by
  induction rest generalizing t k i with
  | zero => exact ⟨_,rfl⟩
  | succ rest ih =>
    have idle := index.idle i (Nat.le_refl i) (by omega)
    have covered := index.covered i (Nat.le_refl i) (by omega)
    rw [indirectSucc] at nodup was
    obtain ⟨left,right,between⟩ := List.nodup_append.mp nodup
    obtain ⟨u,one⟩ := freeIndexRuns h (fun some => (idle some).2) covered left (fun b mem => was b (List.mem_append_left _ mem))
    have first : Freed sb (indexList t.view (k.inode ip) i) t u := freedIndex h (fun some => (idle some).2) covered one
    rw [freeIndirect,runBind,runFreeIndex h index.root (by have := index.inside; omega) idle covered,one,onDiskOk,followOk]
    refine ih first.tables (by rw [withGet]; exact indexedMove (indexedTail index) first (keptStep index)) ?_ ?_
    · rw [withGet,indirectMove (indexedTail index) first (keptStep index)]
      exact right
    · rw [withGet,indirectMove (indexedTail index) first (keptStep index)]
      intro b mem
      have reach := was b (List.mem_append_right _ mem)
      have fresh : b ∉ indexList t.view (k.inode ip) i := fun hit => between b hit b mem rfl
      have inside : Covered sb b := by
        obtain ⟨j,span,mem⟩ := List.mem_flatMap.mp mem
        simp only [List.mem_range'_1] at span
        exact index.covered j (by omega) (by omega) b mem
      rw [first.bits b inside]
      simpa [fresh] using reach

end Indirect

def ownedIndex (view : Nat → Block) (x : Inode) (i : Nat) : List Nat :=
  if slot x (fsIaddrInDirectMin + i) = 0 then []
  else entries (view (slot x (fsIaddrInDirectMin + i))) ++ [slot x (fsIaddrInDirectMin + i)]

def direct (x : Inode) : List Nat := nonzero (slot x) 0 fsIaddrDirectNr

def owned (view : Nat → Block) (x : Inode) : List Nat :=
  direct x ++ (List.range' 0 fsIaddrInDirectNr).flatMap (ownedIndex view x)

structure Owner (t : Disk) (x : Inode) : Prop where
  layout : Layout (superOf t.view) t.size
  quiet : ∀ n, t.held n = none
  root : x.iDev = devRoot
  number : x.inum.toNat < (superOf t.view).sNinodes.toNat
  taken : ∀ b ∈ owned t.view x, Taken t.view b
  covered : ∀ b ∈ owned t.view x, Covered (superOf t.view) b
  distinct : (owned t.view x).Nodup

section Owner

theorem nonzeroMem {f i rest b} : b ∈ nonzero f i rest ↔ b ≠ 0 ∧ ∃ j, i ≤ j ∧ j < i + rest ∧ f j = b := by
  simp only [nonzero,List.mem_filter,List.mem_map,List.mem_range'_1,decide_eq_true_eq]
  constructor
  · rintro ⟨⟨j,⟨low,high⟩,rfl⟩,some⟩
    exact ⟨some,j,low,high,rfl⟩
  · rintro ⟨some,j,low,high,rfl⟩
    exact ⟨⟨j,⟨low,high⟩,rfl⟩,some⟩

theorem ownedIndexMem (small : j < fsIaddrInDirectNr) (mem : b ∈ ownedIndex view x j) : b ∈ owned view x :=
  List.mem_append_right _ (List.mem_flatMap.mpr ⟨j,by simpa using small,mem⟩)

theorem slotOwned (some : slot x (fsIaddrInDirectMin + j) ≠ 0) :
    slot x (fsIaddrInDirectMin + j) ∈ ownedIndex view x j := by
  rw [ownedIndex,if_neg some]
  simp

theorem ownedNonzero : 0 ∉ owned view x := by
  intro mem
  rcases List.mem_append.mp mem with left | right
  · exact (nonzeroMem.mp left).1 rfl
  · obtain ⟨j,_,mem⟩ := List.mem_flatMap.mp right
    unfold ownedIndex at mem
    split at mem
    · cases mem
    · rename_i some
      rcases List.mem_append.mp mem with entry | itself
      · exact (nonzeroMem.mp entry).1 rfl
      · exact some (List.mem_singleton.mp itself).symm

theorem ownerTables (h : Owner t x) : Tables (superOf t.view) t := ⟨h.layout,rfl,fun n _ _ => h.quiet n⟩

theorem ownerBlock (h : Owner t x) {b} (mem : b ∈ owned t.view x) : Idle t b ∧ Outside (superOf t.view) b := by
  obtain ⟨i,inside,rfl,_⟩ := h.taken b mem
  refine ⟨⟨h.quiet _,?_⟩,h.layout.apart i inside⟩
  have := h.layout.data
  omega

theorem ownerInode (h : Owner t x) : inodeBlock (superOf t.view) x.inum < tablesEnd (superOf t.view) := by
  have := h.number
  simp only [inodeBlock,tablesEnd,inodesPerBlock,bsize,dInodeBytes]
  omega

theorem zeroCovered (h : Owner t x) : Covered (superOf t.view) 0 := by
  have inode := (Nat.le_add_right _ _ : (superOf t.view).inodeStart ≤ _).trans_lt (ownerInode h)
  have start := inodeStartNat h.layout
  have map := bitmapStartNat h.layout
  simp only [Covered,mapBlock,Nat.zero_div]
  omega

theorem indexListMem {view j b} (mem : b ∈ indexList view x j) :
    b ∈ ownedIndex view x j ∨ b = 0 ∧ slot x (fsIaddrInDirectMin + j) = 0 := by
  unfold indexList at mem
  unfold ownedIndex
  split at mem
  · rename_i zero
    simp only [List.nil_append,List.mem_singleton] at mem
    exact Or.inr ⟨mem.trans zero,zero⟩
  · rename_i some
    rw [if_neg some]
    exact Or.inl mem

theorem ownedApart (h : Owner t x) {j l b} (less : j < l) (small : l < fsIaddrInDirectNr) (left : b ∈ ownedIndex t.view x j)
    (right : b ∈ ownedIndex t.view x l) : False := by
  have nodup := (List.nodup_append.mp h.distinct).2.1
  rw [List.nodup_flatMap] at nodup
  exact (List.pairwise_iff_get.mp nodup.2 ⟨j,by simp; omega⟩ ⟨l,by simp; omega⟩ less) (by simpa using left) (by simpa using right)

theorem ownerIndexed (h : Owner t x) : Indexed (superOf t.view) t x 0 fsIaddrInDirectNr := by
  refine ⟨by rw [h.root]; exact devRootNat,by simp,?_,?_,?_⟩
  · intro j _ high some
    exact ownerBlock h (ownedIndexMem (by omega) (slotOwned some))
  · intro j _ high b mem
    rcases indexListMem mem with mine | ⟨rfl,_⟩
    · exact h.covered b (ownedIndexMem (by omega) mine)
    · exact zeroCovered h
  · intro j l _ less high some mem
    rcases indexListMem mem with mine | ⟨zero,_⟩
    · exact ownedApart h less (by omega) mine (slotOwned some)
    · exact some zero

theorem keptDirect (h : Owner t x) : Undisturbed (direct x) x (cleared x 0 fsIaddrDirectNr) 0 fsIaddrInDirectNr := by
  refine ⟨rfl,fun j _ _ => slotCleared (Or.inr (by simp only [fsIaddrDirectNr,fsIaddrInDirectMin]; omega)),?_⟩
  intro j _ high some mem
  have right : slot x (fsIaddrInDirectMin + j) ∈ (List.range' 0 fsIaddrInDirectNr).flatMap (ownedIndex t.view x) :=
    List.mem_flatMap.mpr ⟨j,by simpa using high,slotOwned some⟩
  exact (List.nodup_append.mp h.distinct).2.2 _ mem _ right rfl

end Owner

def truncated (view : Nat → Block) (x : Inode) : List Nat := direct x ++ indirectList view x 0 fsIaddrInDirectNr

def emptied (x : Inode) : Inode := {cleared x 0 (fsIaddrDirectNr + fsIaddrInDirectNr) with iSize := 0}

section Truncation

theorem runFinish {sb} (h : Tables sb t) (root : (k.inode ip).iDev.toNat = rootDev)
    (numbered : (k.inode ip).inum.toNat < sb.sNinodes.toNat) :
    run diskLayer (editInode ip (fun x => {x with iSize := 0}) >>= fun _ => inodeUpdate ip) ⟨t,k⟩ =
      .ok ((),⟨putInode t sb (k.inode ip).inum (diskCopy {k.inode ip with iSize := 0}),k.withInode ip {k.inode ip with iSize := 0}⟩) := by
  simp only [editInode,runBind,runMemory,runSetMemory,followOk]
  have last := @runInodeUpdate _ (k.withInode ip {k.inode ip with iSize := 0}) _ ip h
  rw [withGet] at last
  exact last root numbered

theorem runDirect (h : Owner t (k.inode ip)) :
    run diskLayer (freeDirect ip fsIaddrDirectNr 0) ⟨t,k⟩ =
      onDisk (freeAll (superOf t.view) (direct (k.inode ip)) t)
        ((logged k (direct (k.inode ip))).withInode ip (cleared (k.inode ip) 0 fsIaddrDirectNr)) (fun s => .ok ((),s)) :=
  runFreeDirect (ownerTables h) (by rw [h.root]; exact devRootNat) (by decide)
    (fun b mem => h.covered b (List.mem_append_left _ mem))

theorem runTruncateOk {v : State} (h : Owner t (k.inode ip)) (ok : run diskLayer (inodeTruncate ip) ⟨t,k⟩ = .ok ((),v)) :
    (∃ d, Freed (superOf t.view) (truncated t.view (k.inode ip)) t d) ∧
      v.mem = (logged k (truncated t.view (k.inode ip))).withInode ip (emptied (k.inode ip)) ∧
      diskInode v.disk.view (k.inode ip).inum = diskCopy (emptied (k.inode ip)) := by
  rw [inodeTruncate,runBind,runDirect h] at ok
  cases all : freeAll (superOf t.view) (direct (k.inode ip)) t with
  | error e => simp [all] at ok
  | ok d =>
    have first := freedAll (ownerTables h) (fun b mem => h.covered b (List.mem_append_left _ mem)) all
    have index := indexedMove (ownerIndexed h) first (keptDirect h)
    rw [all,onDiskOk,followOk] at ok
    obtain ⟨_,⟨u,m⟩,loop,last⟩ := runCut ok
    obtain ⟨later,memory⟩ := runFreeIndirectOk first.tables (by rw [withGet]; exact index) loop
    rw [withGet,indirectMove (ownerIndexed h) first (keptDirect h)] at later memory
    rw [Nat.add_zero,show fsIaddrInDirectMin = 0 + fsIaddrDirectNr from rfl,clearedAppend,loggedWith,withTwice,loggedAppend] at memory
    change m = _ at memory
    subst memory
    have finish := @runFinish _ ((logged k (truncated t.view (k.inode ip))).withInode ip
      (cleared (k.inode ip) 0 (fsIaddrDirectNr + fsIaddrInDirectNr))) ip _ later.tables
    rw [withGet,withTwice] at finish
    have same := (finish (by change (k.inode ip).iDev.toNat = _; rw [h.root]; exact devRootNat) h.number).symm.trans last
    cases same
    exact ⟨⟨u,freedTrans first later⟩,rfl,diskInodePut later.tables _⟩

theorem truncateRuns (h : Owner t (k.inode ip)) (nodup : (truncated t.view (k.inode ip)).Nodup)
    (was : ∀ b ∈ truncated t.view (k.inode ip), reachable b ∧ mapBit t.view (superOf t.view).bitmapStart b = true) :
    ∃ v, run diskLayer (inodeTruncate ip) ⟨t,k⟩ = .ok ((),v) := by
  obtain ⟨left,right,between⟩ := List.nodup_append.mp nodup
  have covered : ∀ b ∈ direct (k.inode ip), Covered (superOf t.view) b := fun b mem => h.covered b (List.mem_append_left _ mem)
  obtain ⟨d,all⟩ := freeAllRuns (ownerTables h) covered left (fun b mem => was b (List.mem_append_left _ mem))
  have first := freedAll (ownerTables h) covered all
  have index := indexedMove (ownerIndexed h) first (keptDirect h)
  have same := indirectMove (ownerIndexed h) first (keptDirect h)
  have loop : ∃ v, run diskLayer (freeIndirect ip fsIaddrInDirectNr 0)
      (⟨d,(logged k (direct (k.inode ip))).withInode ip (cleared (k.inode ip) 0 fsIaddrDirectNr)⟩ : State) = .ok ((),v) := by
    refine freeIndirectRuns first.tables (by rw [withGet]; exact index) (by rw [withGet,same]; exact right) ?_
    rw [withGet,same]
    intro b mem
    have fresh : b ∉ direct (k.inode ip) := fun hit => between b hit b mem rfl
    have inside : Covered (superOf t.view) b := by
      obtain ⟨j,span,mem⟩ := List.mem_flatMap.mp mem
      simp only [List.mem_range'_1] at span
      exact (ownerIndexed h).covered j (by omega) (by omega) b mem
    rw [first.bits b inside]
    simpa [fresh] using was b (List.mem_append_right _ mem)
  obtain ⟨⟨u,m⟩,loop⟩ := loop
  obtain ⟨later,memory⟩ := runFreeIndirectOk first.tables (by rw [withGet]; exact index) loop
  change m = _ at memory
  have root : (m.inode ip).iDev.toNat = rootDev := by
    rw [memory,withGet,withGet]
    change (k.inode ip).iDev.toNat = _
    rw [h.root]
    exact devRootNat
  have numbered : (m.inode ip).inum.toNat < (superOf t.view).sNinodes.toNat := by
    rw [memory,withGet,withGet]
    exact h.number
  have steps : run diskLayer (inodeTruncate ip) ⟨t,k⟩ = run diskLayer
      (editInode ip (fun x => {x with iSize := 0}) >>= fun _ => inodeUpdate ip) ⟨u,m⟩ := by
    rw [inodeTruncate,runBind,runDirect h,all,onDiskOk,followOk,runBind,loop,followOk]
  exact ⟨_,steps.trans (runFinish later.tables root numbered)⟩

end Truncation

def Truncates (w : World Store Kernel) (ip : Nat) : Prop :=
  ∃ w' : World Store Kernel, ∃ list : List Nat, run cacheLayer (inodeTruncate ip) w = .ok ((),w') ∧
    w'.mem.released = list.reverse ++ w.mem.released ∧ list.Perm (owned (cachedView w.disk) (w.mem.inode ip)) ∧
    (∀ i, (w'.mem.inode ip).iAddr i = 0) ∧ (w'.mem.inode ip).iSize = 0 ∧
    diskInode (cachedView w'.disk) (w.mem.inode ip).inum = diskCopy (w'.mem.inode ip)

def Releasable (view : Nat → Block) (x : Inode) : Prop :=
  (∀ i < fsIaddrInDirectNr, slot x (fsIaddrInDirectMin + i) ≠ 0) ∧
    (∀ i < fsIaddrDoubleNr, slot x (fsIaddrInDirectMin + fsIaddrInDirectNr + i) = 0) ∧
    ∀ b ∈ owned view x, reachable b ∧ mapBit view (superOf view).bitmapStart b = true

theorem truncatedOwned (view : Nat → Block) {x} (full : ∀ i < fsIaddrInDirectNr, slot x (fsIaddrInDirectMin + i) ≠ 0) :
    truncated view x = owned view x := by
  unfold truncated owned indirectList
  congr 1
  refine List.flatMap_congr fun j mem => ?_
  have some := full j (by simpa using mem)
  rw [indexList,ownedIndex,if_neg some,if_neg some]

theorem truncatedZero (small : i < fsIaddrInDirectNr) (zero : slot x (fsIaddrInDirectMin + i) = 0) : 0 ∈ truncated view x := by
  refine List.mem_append_right _ (List.mem_flatMap.mpr ⟨i,by simpa using small,?_⟩)
  simp [indexList,zero]

theorem emptiedAddr : (∀ i, (emptied x).iAddr i = 0) ↔ ∀ i < fsIaddrDoubleNr, slot x (fsIaddrInDirectMin + fsIaddrInDirectNr + i) = 0 := by
  constructor
  · intro all i small
    have only : i = 0 := Nat.lt_one_iff.mp small
    subst only
    have last := all ⟨fsIaddrInDirectMin + fsIaddrInDirectNr + 0,by decide⟩
    exact slotZero.mp last
  · intro none i
    change (if 0 ≤ i.1 ∧ i.1 < 0 + (fsIaddrDirectNr + fsIaddrInDirectNr) then 0 else x.iAddr i) = 0
    by_cases below : i.1 < 15
    · exact if_pos ⟨Nat.zero_le _,below⟩
    · have last : i.1 = 15 := by
        have := i.2
        simp only [fsIaddrNr,fsIaddrDirectNr,fsIaddrInDirectNr,fsIaddrDoubleNr] at this
        omega
      have zero := slotZero.mpr (none 0 (by decide))
      rw [addrAt,dif_pos (by decide)] at zero
      rw [if_neg (fun inside => below inside.2),← zero]
      exact congrArg x.iAddr (Fin.ext last)

theorem truncateFreesOwned {s : Store} {t : Disk} (k : Kernel) (ip : Nat) (matched : Matches s t) (h : Owner t (k.inode ip)) :
    run cacheLayer (inodeTruncate ip) ⟨s,k⟩ = .error .noBuffers ∨
      (Truncates ⟨s,k⟩ ip ↔ Releasable (cachedView s) (k.inode ip)) := by
  have view := matchesView matched
  by_cases stuck : run cacheLayer (inodeTruncate ip) ⟨s,k⟩ = .error .noBuffers
  · exact Or.inl stuck
  refine Or.inr ⟨?_,?_⟩
  · rintro ⟨w,list,ran,log,perm,slots,_,_⟩
    obtain ⟨u,ok,_⟩ := fromCache matched ran
    obtain ⟨⟨d,freed⟩,memory,_⟩ := runTruncateOk h ok
    dsimp only at memory perm log
    rw [view] at perm ⊢
    rw [memory] at log slots
    have same : truncated t.view (k.inode ip) = list := List.reverse_injective (List.append_cancel_right log)
    subst same
    have full : ∀ i < fsIaddrInDirectNr, slot (k.inode ip) (fsIaddrInDirectMin + i) ≠ 0 :=
      fun i small zero => ownedNonzero (perm.mem_iff.mp (truncatedZero small zero))
    rw [withGet] at slots
    exact ⟨full,emptiedAddr.mp slots,fun b mem => freed.was b (perm.mem_iff.mpr mem)⟩
  · rintro ⟨full,last,bits⟩
    rw [view] at bits
    have same := truncatedOwned t.view full
    obtain ⟨u,ok⟩ := truncateRuns h (by rw [same]; exact h.distinct) (by rw [same]; exact bits)
    obtain ⟨_,memory,copied⟩ := runTruncateOk h ok
    rcases toCache matched ok with panics | ⟨s',ran,after⟩
    · exact absurd panics stuck
    · refine ⟨_,truncated t.view (k.inode ip),ran,?_⟩
      dsimp only
      rw [view,matchesView after,memory,withGet,same]
      exact ⟨by rw [← same]; rfl,List.Perm.refl _,emptiedAddr.mpr last,rfl,copied⟩

def indexedImage : Mkfs.Image :=
  Function.update smallImage 3 ([1,2,3,11,12,13].foldl withBit (smallImage 3))

def indexedFile : Kernel :=
  emptyFile.withInode 0 {emptyFile.inode 0 with iAddr := fun i => if 12 ≤ i.1 ∧ i.1 < 15 then BitVec.ofNat 64 (i.1 - 1) else 0}

theorem indexedOwner : Owner (flat indexedImage 64) (indexedFile.inode 0) := by
  have super : superOf (flat indexedImage 64).view = ⟨64,16,1,1,10,53,Mkfs.fsMagicNr⟩ := by decide +kernel
  have names : owned (flat indexedImage 64).view (indexedFile.inode 0) = [11,12,13] := by decide +kernel
  have taken : ∀ b ∈ [11,12,13], 10 ≤ b ∧ b < 63 ∧ dataBit (flat indexedImage 64).view (b - 10) = true := by decide +kernel
  refine ⟨by rw [super,← smallSuper]; exact smallLayout,fun _ => rfl,rfl,by rw [super]; decide,?_,?_,by rw [names]; decide⟩
  · rw [names]
    intro b mem
    obtain ⟨low,high,bit⟩ := taken b mem
    refine ⟨b - 10,?_,?_,bit⟩
    · rw [super]
      change b - 10 < 53
      omega
    · rw [super]
      change b = 10 + (b - 10)
      omega
  · rw [names,super]
    unfold Covered
    decide

theorem indexedFileTruncates : Truncates ⟨boot indexedImage 64,indexedFile⟩ 0 := by
  rcases truncateFreesOwned indexedFile 0 (bootMatches indexedImage 64) indexedOwner with stuck | iff
  · have runs : fault (run cacheLayer (inodeTruncate 0) ⟨boot indexedImage 64,indexedFile⟩) = none := by
      rw [(smallRun (by decide) _ _).2]
      decide +kernel
    rw [stuck] at runs
    cases runs
  · have names : owned (flat indexedImage 64).view (indexedFile.inode 0) = [11,12,13] := by decide +kernel
    refine iff.mpr ?_
    rw [matchesView (bootMatches indexedImage 64)]
    refine ⟨by decide,by decide,?_⟩
    rw [names]
    unfold reachable
    decide +kernel

theorem emptyFileOwner : Owner (flat smallImage 64) (emptyFile.inode 0) := by
  have names : owned (flat smallImage 64).view (emptyFile.inode 0) = [] := by decide +kernel
  refine ⟨smallLayout,fun _ => rfl,rfl,?_,by simp [names],by simp [names],by simp [names]⟩
  change 0 < (superOf smallImage).sNinodes.toNat
  rw [smallSuper]
  decide

def firstPass : Fs (List Nat) := do
  freeIndexBlock 0 0
  let k ← memory
  pure k.released

theorem truncateReleasesBlockZero :
    Owner (flat smallImage 64) (emptyFile.inode 0) ∧ ¬ Truncates ⟨smallStore,emptyFile⟩ 0 ∧
    result (run cacheLayer firstPass ⟨smallStore,emptyFile⟩) = some [0] ∧
    fault (run cacheLayer (inodeTruncate 0) ⟨smallStore,emptyFile⟩) = some .assertion := by
  have fails : fault (run cacheLayer (inodeTruncate 0) ⟨smallStore,emptyFile⟩) = some .assertion := by
    rw [smallStore,(smallRun (by decide) _ _).2]
    decide +kernel
  refine ⟨emptyFileOwner,?_,?_,fails⟩
  · rintro ⟨w,_,ran,_⟩
    rw [ran] at fails
    cases fails
  · rw [smallStore,(smallRun (by decide) _ _).1]
    decide +kernel

end TskSw.Truncate
