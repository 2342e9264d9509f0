import TskSw.FreshBlocks
import TskSw.InodeIo

/-! `inode_read` and `inode_write` on a file whose blocks stay where they are. The file is an
array of bytes: a write replaces a range of it and a read copies one, over any number of
blocks with a partial first and a partial last one. -/
namespace TskSw.FileBytes
open Bytes BlockProgram BlkIo BlkFlat FsLayout FsKernel DataBitmap DataBlocks Bmap FreshBlocks Inodes InodeIo

variable {src : List UInt8} {ip blocks : Nat} {place : Nat → Nat} {s u : State} {counts : BitVec 64}

section Arrays
variable {f : Nat → UInt8} {off n : Nat}

def overwrite (f : Nat → UInt8) (off : Nat) (src : List UInt8) (p : Nat) : UInt8 :=
  if off ≤ p ∧ p < off + src.length then src.getD (p-off) 0 else f p

def extract (f : Nat → UInt8) (off n : Nat) : List UInt8 := (List.range n).map (fun k => f (off+k))

theorem overwriteNil : overwrite f off [] = f := by
  funext p
  exact if_neg (by rw [List.length_nil]; omega)

theorem overwriteSplit (short : n ≤ src.length) : overwrite (overwrite f off (src.take n)) (off+n) (src.drop n) = overwrite f off src := by
  funext p
  have head : (src.take n).length = n := List.length_take_of_le short
  simp only [overwrite,head,List.length_drop]
  by_cases first : off ≤ p ∧ p < off + n
  · rw [if_neg (by omega),if_pos first,if_pos (by omega),List.getD_eq_getElem?_getD,List.getD_eq_getElem?_getD,List.getElem?_take_of_lt (by omega)]
  · by_cases second : off + n ≤ p ∧ p < off + n + (src.length - n)
    · rw [if_pos second,if_pos (by omega),List.getD_eq_getElem?_getD,List.getD_eq_getElem?_getD,List.getElem?_drop]
      congr 2
      omega
    · rw [if_neg second,if_neg first,if_neg (by omega)]

theorem extractSplit {m} (short : m ≤ n) : extract f off m ++ extract f (off+m) (n-m) = extract f off n := by
  obtain ⟨rest,rfl⟩ := Nat.exists_eq_add_of_le short
  simp [extract,List.range_add,Nat.add_assoc]

end Arrays

def fileByte (view : Nat → Block) (place : Nat → Nat) (p : Nat) : UInt8 := byteAt (view (place (p/bsize))) (p%bsize)

structure Near (ip : Nat) (place : Nat → Nat) (blocks table : Nat) (s u : State) : Prop where
  size : u.disk.size = s.disk.size
  held : u.disk.held = s.disk.held
  view : ∀ n, n ≠ table → (∀ m < blocks, place m ≠ n) → u.disk.view n = s.disk.view n
  mem : ∃ size, u.mem = s.mem.withInode ip {s.mem.inode ip with iSize := size}

structure Fixed (ip : Nat) (place : Nat → Nat) (blocks : Nat) (s : State) : Prop where
  maps : ∀ u, Near ip place blocks (inodeBlock (superOf s.disk.view) (s.mem.inode ip).inum) s u →
    ∀ n < blocks, run diskLayer (bmap ip n) u = .ok (place n,u)
  distinct : ∀ n < blocks, ∀ m < blocks, place n = place m → n = m
  idle : ∀ n < blocks, Idle s.disk (place n)
  super : ∀ n < blocks, place n ≠ superBlockBlkNo
  table : ∀ n < blocks, place n ≠ inodeBlock (superOf s.disk.view) (s.mem.inode ip).inum
  root : (s.mem.inode ip).iDev.toNat = rootDev

section Near
variable {table : Nat}

theorem nearRefl : Near ip place blocks table s s := by
  refine ⟨rfl,rfl,fun _ _ _ => rfl,(s.mem.inode ip).iSize,?_⟩
  simp [Kernel.withInode]

theorem nearStore (h : Near ip place blocks table s u) {n} (small : n < blocks) (d : Block) :
    Near ip place blocks table s ⟨u.disk.store (place n) d,u.mem⟩ := by
  refine ⟨h.size,h.held,fun m outside other => ?_,h.mem⟩
  have apart : m ≠ place n := fun e => other n small e.symm
  rw [← h.view m outside other]
  exact Function.update_of_ne apart ..

theorem nearInode (h : Near ip place blocks table s u) : ∃ size, u.mem.inode ip = {s.mem.inode ip with iSize := size} := by
  obtain ⟨size,same⟩ := h.mem
  exact ⟨size,by rw [same]; simp [Kernel.withInode]⟩

theorem nearIdle (h : Near ip place blocks table s u) {n : Nat} (idle : Idle s.disk n) : Idle u.disk n :=
  ⟨by rw [h.held]; exact idle.free,by rw [h.size]; exact idle.inside⟩

end Near

section Loops

theorem fileByteBlock {view : Nat → Block} {off k : Nat} (inside : off%bsize + k < bsize) :
    fileByte view place (off+k) = byteAt (view (place (off/bsize))) (off%bsize + k) := by
  have block : (off+k)/bsize = off/bsize := by
    simp only [bsize] at inside ⊢
    omega
  have rest : (off+k)%bsize = off%bsize + k := by
    simp only [bsize] at inside ⊢
    omega
  rw [fileByte,block,rest]

theorem sliceExtract {view : Nat → Block} {off n : Nat} (inside : off%bsize + n ≤ bsize) :
    slice (view (place (off/bsize))) (off%bsize) n = extract (fileByte view place) off n := by
  refine List.map_congr_left fun k below => ?_
  have := List.mem_range.mp below
  rw [fileByteBlock (by omega)]

theorem fileBytePut (h : Fixed ip place blocks s) {t : Disk} {off : Nat} {src : List UInt8} (small : off/bsize < blocks)
    (inside : off%bsize + src.length ≤ bsize) {p : Nat} (below : p < blocks*bsize) :
    fileByte (t.store (place (off/bsize)) (patch (t.view (place (off/bsize))) (off%bsize) src)).view place p =
      overwrite (fileByte t.view place) off src p := by
  have range : p/bsize < blocks := Nat.div_lt_of_lt_mul (by rw [Nat.mul_comm]; exact below)
  unfold fileByte overwrite
  by_cases block : p/bsize = off/bsize
  · rw [block,storeView,byteAtPatch _ _ _ _ (Nat.mod_lt _ (by decide))]
    have same : (off%bsize ≤ p%bsize ∧ p%bsize < off%bsize + src.length) ↔ (off ≤ p ∧ p < off + src.length) := by
      simp only [bsize] at block inside ⊢
      omega
    have index : p%bsize - off%bsize = p - off := by
      simp only [bsize] at block ⊢
      omega
    simp only [same,index,block]
  · have apart : place (p/bsize) ≠ place (off/bsize) := fun e => block (h.distinct _ range _ small e)
    have outside : ¬ (off ≤ p ∧ p < off + src.length) := by
      simp only [bsize] at block inside ⊢
      omega
    rw [if_neg outside]
    simp only [Disk.store,Function.update_of_ne apart]

theorem readLoopBytes (h : Fixed ip place blocks s) (near : Near ip place blocks (inodeBlock (superOf s.disk.view) (s.mem.inode ip).inum) s u)
    {passes off remains} (enough : remains ≤ passes) (inside : off + remains ≤ blocks*bsize) (small : off + remains < 2^63) :
    run diskLayer (readLoop ip passes off remains) u = .ok (extract (fileByte u.disk.view place) off remains,u) := by
  induction passes generalizing off remains with
  | zero =>
    obtain rfl : remains = 0 := by omega
    rfl
  | succ passes ih =>
    by_cases none : remains = 0
    · subst none
      rfl
    have block : off/bsize < blocks := Nat.div_lt_of_lt_mul (by rw [Nat.mul_comm]; omega)
    have some : 0 < min remains (bsize - off%bsize) := by
      simp only [bsize]
      omega
    obtain ⟨size,same⟩ := nearInode near
    have root : (u.mem.inode ip).iDev.toNat = rootDev := by
      rw [same]
      exact h.root
    have idle := nearIdle near (h.idle _ block)
    rw [readLoop,if_neg none,if_neg (by omega)]
    simp only [runBind,h.maps u near _ block,followOk,getInode,runMemory,runPure,runBread root idle,runData,runRelease idle.free _ rfl]
    rw [ih (by omega) (by omega) (by omega)]
    simp only [followOk]
    rw [sliceExtract (by omega),extractSplit (by omega)]

theorem writeLoopBytes (h : Fixed ip place blocks s) (near : Near ip place blocks (inodeBlock (superOf s.disk.view) (s.mem.inode ip).inum) s u)
    {passes off src} (enough : src.length ≤ passes) (inside : off + src.length ≤ blocks*bsize) (small : off + src.length < 2^63) :
    ∃ v, run diskLayer (writeLoop ip passes off src) u = .ok ((),⟨v,u.mem⟩) ∧
      Near ip place blocks (inodeBlock (superOf s.disk.view) (s.mem.inode ip).inum) s ⟨v,u.mem⟩ ∧
      (∀ n, (∀ m < blocks, place m ≠ n) → v.view n = u.disk.view n) ∧
      ∀ p < blocks*bsize, fileByte v.view place p = overwrite (fileByte u.disk.view place) off src p := by
  induction passes generalizing off src u with
  | zero =>
    obtain rfl : src = [] := List.length_eq_zero_iff.mp (by omega)
    exact ⟨u.disk,rfl,near,fun _ _ => rfl,fun p _ => by rw [overwriteNil]⟩
  | succ passes ih =>
    by_cases none : src = []
    · subst none
      exact ⟨u.disk,rfl,near,fun _ _ => rfl,fun p _ => by rw [overwriteNil]⟩
    have positive : 0 < src.length := List.length_pos_of_ne_nil none
    have block : off/bsize < blocks := Nat.div_lt_of_lt_mul (by rw [Nat.mul_comm]; omega)
    have some : 0 < min src.length (bsize - off%bsize) := by
      simp only [bsize]
      omega
    obtain ⟨size,same⟩ := nearInode near
    have root : (u.mem.inode ip).iDev.toNat = rootDev := by
      rw [same]
      exact h.root
    have idle := nearIdle near (h.idle _ block)
    generalize amount : min src.length (bsize - off%bsize) = wr at some
    have head : (src.take wr).length = wr := List.length_take_of_le (by omega)
    have tail : (src.drop wr).length = src.length - wr := List.length_drop
    obtain ⟨v,ran,after,kept,bytes⟩ := ih (nearStore near block (patch (u.disk.view (place (off/bsize))) (off%bsize) (src.take wr)))
      (show (src.drop wr).length ≤ passes by omega) (show off + wr + (src.drop wr).length ≤ blocks*bsize by omega) (by omega)
    refine ⟨v,?_,after,fun n outside => ?_,fun p below => ?_⟩
    · have free := (idleStore idle (m := place (off/bsize)) (patch (u.disk.view (place (off/bsize))) (off%bsize) (src.take wr))).free
      rw [writeLoop,if_neg none,if_neg (by omega)]
      simp only [runBind,h.maps u near _ block,followOk,getInode,runMemory,runPure,runBread root idle,runData,runSet,runWrite,amount,
        runRelease free _ (storeView _).symm]
      exact ran
    · rw [kept n outside]
      exact Function.update_of_ne (outside _ block).symm ..
    · rw [bytes p below,← overwriteSplit (show wr ≤ src.length by omega)]
      unfold overwrite
      split
      · rfl
      · exact fileBytePut h block (by omega) below

end Loops

section Checks
variable {σ : Type} {L : Layer σ Nat Block Fault} {w : World σ Kernel} {off : BitVec 64}

theorem runWriteChecked (file : (w.mem.inode ip).iMode ≠ fsImodeDev) (start : off.toNat ≤ (w.mem.inode ip).iSize.toNat)
    (limit : off.toNat + src.length ≤ fsMaxfileSize) : run L (inodeWrite ip src off) w =
      follow (run L (writeLoop ip src.length off.toNat src) w) (fun _ t => follow
        (if src = [] then .ok ((),t) else run L (grow ip (BitVec.ofNat 64 (off.toNat + src.length))) t) fun _ u => .ok ((src.length : Int),u)) := by
  have bound : fsMaxfileSize < 2^63 := by decide
  have sum : off + BitVec.ofNat 64 src.length = BitVec.ofNat 64 (off.toNat + src.length) := by
    rw [← offAdd,BitVec.ofNat_toNat,BitVec.setWidth_eq]
  have low : ¬ ((w.mem.inode ip).iSize < off ∨ BitVec.ofNat 64 (off.toNat + src.length) < off) := by
    rw [BitVec.lt_def,BitVec.lt_def,offNat (by omega)]
    omega
  have high : ¬ BitVec.ofNat 64 fsMaxfileSize < BitVec.ofNat 64 (off.toNat + src.length) := by
    have last := offNat (show off.toNat + src.length < 2^63 by omega)
    have top := offNat bound
    rw [BitVec.lt_def]
    omega
  simp only [inodeWrite,getInode,runBind,runMemory,runPure,followOk,kassert,if_pos file,sum,if_neg low,if_neg high,offInt
    (show src.length < 2^63 by omega)]
  refine congrArg (follow _) (funext fun _ => funext fun t => ?_)
  by_cases none : src = []
  · simp [none]
  · simp [none]

theorem runReadInside (file : (w.mem.inode ip).iMode ≠ fsImodeDev) (start : off.toNat ≤ (w.mem.inode ip).iSize.toNat)
    (fits : off.toNat + counts.toNat < 2^64) : run L (inodeRead ip off counts) w =
      follow (run L (readLoop ip (min counts.toNat ((w.mem.inode ip).iSize.toNat - off.toNat)) off.toNat
        (min counts.toNat ((w.mem.inode ip).iSize.toNat - off.toNat))) w) fun bytes u =>
          .ok (((BitVec.ofNat 64 (min counts.toNat ((w.mem.inode ip).iSize.toNat - off.toNat))).toInt,bytes),u) := by
  have sum : (off + counts).toNat = off.toNat + counts.toNat := by
    rw [BitVec.toNat_add]
    omega
  have low : ¬ ((w.mem.inode ip).iSize < off ∨ off + counts < off) := by
    rw [BitVec.lt_def,BitVec.lt_def,sum]
    omega
  have amount : (if (w.mem.inode ip).iSize < off + counts then (w.mem.inode ip).iSize - off else counts).toNat =
      min counts.toNat ((w.mem.inode ip).iSize.toNat - off.toNat) := by
    simp only [BitVec.lt_def,sum]
    split
    · rw [BitVec.toNat_sub_of_le (by rw [BitVec.le_def]; exact start)]
      omega
    · omega
  have count : (if (w.mem.inode ip).iSize < off + counts then (w.mem.inode ip).iSize - off else counts) =
      BitVec.ofNat 64 (min counts.toNat ((w.mem.inode ip).iSize.toNat - off.toNat)) := by
    rw [← amount,BitVec.ofNat_toNat,BitVec.setWidth_eq]
  rw [count] at amount
  simp only [inodeRead,getInode,runBind,runMemory,runPure,followOk,kassert,if_pos file,if_neg low,count,amount]

theorem runReadChecked (file : (w.mem.inode ip).iMode ≠ fsImodeDev) (start : off.toNat ≤ (w.mem.inode ip).iSize.toNat)
    (fits : off.toNat + counts.toNat < 2^64) (small : (w.mem.inode ip).iSize.toNat < 2^63) : run L (inodeRead ip off counts) w =
      follow (run L (readLoop ip (min counts.toNat ((w.mem.inode ip).iSize.toNat - off.toNat)) off.toNat
        (min counts.toNat ((w.mem.inode ip).iSize.toNat - off.toNat))) w) fun bytes u =>
          .ok ((((min counts.toNat ((w.mem.inode ip).iSize.toNat - off.toNat) : Nat) : Int),bytes),u) := by
  rw [runReadInside file start fits,offInt (by omega)]

end Checks

section Calls
variable {sb : Superblock} {off : BitVec 64}

theorem fixedFew (h : Fixed ip place blocks s) : blocks*bsize < 2^63 := by
  have beyond : ∀ n, fsIaddrDirectNr + fsIaddrInDirectNr*iaddrsPerBlock ≤ n → n < blocks → place n = 0 := by
    intro n high below
    have ran := h.maps s nearRefl n below
    rw [bmapBeyond high] at ran
    exact (Prod.mk.inj (Except.ok.inj ran)).1.symm
  by_contra many
  simp only [bsize] at many
  have first := beyond 204 (by decide) (by omega)
  have second := beyond 205 (by decide) (by omega)
  have same := h.distinct 204 (by omega) 205 (by omega) (first.trans second.symm)
  omega

theorem nearTables (h : Fixed ip place blocks s) (tables : Tables sb s.disk)
    (near : Near ip place blocks (inodeBlock (superOf s.disk.view) (s.mem.inode ip).inum) s u) : Tables sb u.disk := by
  have apart : superBlockBlkNo ≠ inodeBlock (superOf s.disk.view) (s.mem.inode ip).inum := by
    have low := inodeBlockLow tables (s.mem.inode ip).inum
    rw [tables.super,superBlockBlkNo]
    omega
  refine ⟨by rw [near.size]; exact tables.layout,?_,by rw [near.held]; exact tables.free⟩
  rw [superOf,near.view _ apart h.super]
  exact tables.super

theorem writeBytes (h : Fixed ip place blocks s) (tables : Tables sb s.disk) (numbered : (s.mem.inode ip).inum.toNat < sb.sNinodes.toNat)
    (file : (s.mem.inode ip).iMode ≠ fsImodeDev) (start : off.toNat ≤ (s.mem.inode ip).iSize.toNat)
    (limit : off.toNat + src.length ≤ fsMaxfileSize) (inside : off.toNat + src.length ≤ blocks*bsize) :
    ∃ u, run diskLayer (inodeWrite ip src off) s = .ok ((src.length : Int),u) ∧
      Near ip place blocks (inodeBlock (superOf s.disk.view) (s.mem.inode ip).inum) s u ∧
      (u.mem.inode ip).iSize.toNat = max (s.mem.inode ip).iSize.toNat (off.toNat + src.length) ∧
      ∀ p < blocks*bsize, fileByte u.disk.view place p = overwrite (fileByte s.disk.view place) off.toNat src p := by
  have bound : fsMaxfileSize < 2^63 := by decide
  have sum : (BitVec.ofNat 64 (off.toNat + src.length)).toNat = off.toNat + src.length := offNat (by omega)
  obtain ⟨v,ran,near,_,bytes⟩ := writeLoopBytes h nearRefl (Nat.le_refl src.length) inside (by omega)
  have whole := runWriteChecked (L := diskLayer) file start limit
  rw [ran,followOk] at whole
  by_cases grown : (s.mem.inode ip).iSize.toNat < off.toNat + src.length
  · have some : src ≠ [] := by
      rintro rfl
      rw [List.length_nil] at grown
      omega
    have root : (s.mem.inode ip).iDev.toNat = rootDev := h.root
    have last := runGrow (nearTables h tables near) root numbered (by rw [sum]; exact grown)
    rw [if_neg some,last] at whole
    refine ⟨_,whole,?_,?_,fun p below => ?_⟩
    · refine ⟨near.size,near.held,fun n outside other => ?_,_,rfl⟩
      rw [tables.super] at outside
      exact (putInodeView outside).trans (near.view n (by rw [tables.super]; exact outside) other)
    · simp only [Kernel.withInode,Function.update_self,sum]
      omega
    · rw [← bytes p below,fileByte,fileByte]
      have block : p/bsize < blocks := Nat.div_lt_of_lt_mul (by rw [Nat.mul_comm]; exact below)
      have outside := h.table _ block
      rw [tables.super] at outside
      exact congrArg (fun d => byteAt d (p%bsize)) (putInodeView outside)
  · have stays : (if src = [] then .ok ((),⟨v,s.mem⟩) else run diskLayer (grow ip (BitVec.ofNat 64 (off.toNat + src.length))) ⟨v,s.mem⟩) =
        .ok ((),⟨v,s.mem⟩) := by
      split
      · rfl
      · exact runGrowNone (by rw [sum]; omega)
    rw [stays] at whole
    have keeps : (s.mem.inode ip).iSize.toNat = max (s.mem.inode ip).iSize.toNat (off.toNat + src.length) := by omega
    exact ⟨_,whole,near,keeps,bytes⟩

theorem readBytes (h : Fixed ip place blocks s) (near : Near ip place blocks (inodeBlock (superOf s.disk.view) (s.mem.inode ip).inum) s u)
    (file : (s.mem.inode ip).iMode ≠ fsImodeDev) (whole : (u.mem.inode ip).iSize.toNat ≤ blocks*bsize)
    (start : off.toNat ≤ (u.mem.inode ip).iSize.toNat) (fits : off.toNat + counts.toNat < 2^64) :
    run diskLayer (inodeRead ip off counts) u = .ok (((min counts.toNat ((u.mem.inode ip).iSize.toNat - off.toNat) : Nat),
      extract (fileByte u.disk.view place) off.toNat (min counts.toNat ((u.mem.inode ip).iSize.toNat - off.toNat))),u) := by
  have few := fixedFew h
  have mode : (u.mem.inode ip).iMode ≠ fsImodeDev := by
    obtain ⟨size,same⟩ := nearInode near
    rw [same]
    exact file
  rw [runReadChecked mode start fits (by omega),readLoopBytes h near le_rfl (by omega) (by omega)]
  rfl

end Calls

section Mapped

theorem takenBehind {t x b} (h : Mapping t x) (taken : Taken t.view b) : tablesEnd (superOf t.view) ≤ b := by
  obtain ⟨i,inside,rfl,_⟩ := taken
  have := h.layout.apart i inside
  have := h.positive
  omega

theorem mappingSize {t : Disk} {x : Inode} (h : Mapping t x) (size : BitVec 64) : Mapping t {x with iSize := size} :=
  mappingSame h rfl rfl

theorem mappingFixed (h : Mapping s.disk (s.mem.inode ip)) (numbered : (s.mem.inode ip).inum.toNat < (superOf s.disk.view).sNinodes.toNat)
    (few : blocks ≤ mappable) (filled : ∀ n < blocks, mapped s.disk.view (s.mem.inode ip) n ≠ 0)
    (index : ∀ n < blocks, mapped s.disk.view (s.mem.inode ip) n ≠ (addrAt (s.mem.inode ip).iAddr fsIaddrInDirectMin).toNat) :
    Fixed ip (mapped s.disk.view (s.mem.inode ip)) blocks s := by
  have start := inodeStartNat h.layout
  have table : inodeBlock (superOf s.disk.view) (s.mem.inode ip).inum < tablesEnd (superOf s.disk.view) := inodeBlockTable numbered
  have low : (superOf s.disk.view).inodeStart ≤ inodeBlock (superOf s.disk.view) (s.mem.inode ip).inum := Nat.le_add_right _ _
  have behind : ∀ n < blocks, tablesEnd (superOf s.disk.view) ≤ mapped s.disk.view (s.mem.inode ip) n :=
    fun n below => takenBehind h (h.taken n (by omega) (filled n below))
  refine ⟨fun u near n below => ?_,fun n left m right same => h.distinct n (by omega) m (by omega) (filled n left) same,fun n below => ?_,
    fun n below => ?_,fun n below => ?_,by rw [h.root]; exact devRootNat⟩
  · obtain ⟨size,same⟩ := nearInode near
    obtain ⟨after,_,maps⟩ := mappingAgree (mappingSize h size) near.size near.held
      (fun m _ high => near.view m (by omega) fun j inside e => by have := behind j inside; omega)
      (fun attached => near.view (addrAt (s.mem.inode ip).iAddr fsIaddrInDirectMin).toNat
        (by have := takenBehind h (h.index attached); omega) fun j inside => index j inside)
    have value : mapped u.disk.view (u.mem.inode ip) n = mapped s.disk.view (s.mem.inode ip) n := by
      rw [same]
      exact maps n
    rw [← value]
    rw [← same] at after
    exact runMapped after (by omega) (by rw [value]; exact filled n below)
  · obtain ⟨i,inside,place,_⟩ := h.taken n (by omega) (filled n below)
    refine ⟨h.quiet _,?_⟩
    have := h.layout.data
    omega
  · have := behind n below
    rw [superBlockBlkNo]
    omega
  · have := behind n below
    omega

end Mapped

theorem writeReadBytes {s : Store} {t : Disk} {k : Kernel} {sb : Superblock} {ip blocks : Nat} {place : Nat → Nat} (matched : Matches s t)
    (fixed : Fixed ip place blocks ⟨t,k⟩) (tables : Tables sb t) (numbered : (k.inode ip).inum.toNat < sb.sNinodes.toNat)
    (file : (k.inode ip).iMode ≠ fsImodeDev) (whole : (k.inode ip).iSize.toNat ≤ blocks*bsize) (src : List UInt8) (off : BitVec 64)
    (start : off.toNat ≤ (k.inode ip).iSize.toNat) (limit : off.toNat + src.length ≤ fsMaxfileSize)
    (inside : off.toNat + src.length ≤ blocks*bsize) :
    run cacheLayer (inodeWrite ip src off) ⟨s,k⟩ = .error .noBuffers ∨
      ∃ s' k', run cacheLayer (inodeWrite ip src off) ⟨s,k⟩ = .ok ((src.length : Int),⟨s',k'⟩) ∧
        (∀ p < blocks*bsize, fileByte (cachedView s') place p = overwrite (fileByte (cachedView s) place) off.toNat src p) ∧
        (∀ n, n ≠ inodeBlock sb (k.inode ip).inum → (∀ m < blocks, place m ≠ n) → cachedView s' n = cachedView s n) ∧
        ∀ off2 counts2 : BitVec 64, off2.toNat ≤ (k'.inode ip).iSize.toNat → off2.toNat + counts2.toNat < 2^64 →
          run cacheLayer (inodeRead ip off2 counts2) ⟨s',k'⟩ = .error .noBuffers ∨
            ∃ s2 dst, run cacheLayer (inodeRead ip off2 counts2) ⟨s',k'⟩ = .ok (((dst.length : Int),dst),⟨s2,k'⟩) ∧
              dst.length = min counts2.toNat ((k'.inode ip).iSize.toNat - off2.toNat) ∧
              (∀ j < dst.length, dst.getD j 0 = fileByte (cachedView s') place (off2.toNat + j)) ∧ cachedView s2 = cachedView s' := by
  obtain ⟨u,ran,near,size,bytes⟩ := writeBytes fixed tables numbered file start limit inside
  rcases toCache matched ran with stuck | ⟨s',ok,after⟩
  · exact Or.inl stuck
  refine Or.inr ⟨s',u.mem,ok,?_,?_,fun off2 counts2 low fits => ?_⟩
  · rw [matchesView matched,matchesView after]
    exact bytes
  · rw [matchesView matched,matchesView after,← tables.super]
    exact near.view
  · have read := readBytes fixed near file (show (u.mem.inode ip).iSize.toNat ≤ blocks*bsize by rw [size]; exact max_le whole inside) low fits
    rcases toCache after read with stuck | ⟨s2,ok,later⟩
    · exact Or.inl stuck
    have length : (extract (fileByte u.disk.view place) off2.toNat (min counts2.toNat ((u.mem.inode ip).iSize.toNat - off2.toNat))).length =
        min counts2.toNat ((u.mem.inode ip).iSize.toNat - off2.toNat) := by rw [extract,List.length_map,List.length_range]
    refine Or.inr ⟨s2,_,by rw [length]; exact ok,length,fun j below => ?_,by rw [matchesView after,matchesView later]⟩
    rw [length] at below
    rw [matchesView after]
    simp [extract,List.getD_eq_getElem?_getD,below]

def twoBlocks : Inode :=
  let x := (emptyFile.inode 0).withAddr ⟨0,Nat.zero_lt_succ _⟩ 11
  {x.withAddr ⟨1,Nat.succ_lt_succ (Nat.zero_lt_succ _)⟩ 12 with iSize := 600}

def twoBlocksDisk : Disk := allocated (allocated (flat smallImage 64) 1) 2

theorem twoBlocksMapping : Mapping (flat twoBlocksDisk.view 64) twoBlocks := by
  have super : superOf (flat smallImage 64).view = ⟨64,16,1,1,10,53,Mkfs.fsMagicNr⟩ := smallSuper
  have layout : Layout (superOf (flat smallImage 64).view) (flat smallImage 64).size := smallLayout
  have first := mappingFresh emptyFileMapping (n := 0) (f := 1) (by decide) (by rw [super]; decide) (reachableSmall (by decide)) (by decide +kernel)
  have super' : superOf (allocated (flat smallImage 64) 1).view = ⟨64,16,1,1,10,53,Mkfs.fsMagicNr⟩ :=
    (allocatedSuper layout (by rw [super]; decide)).trans super
  have second := mappingFresh first (n := 1) (f := 2) (by decide) (by rw [super']; decide) (reachableSmall (by decide)) (by decide +kernel)
  rw [super,super'] at second
  have sized := mappingSize second 600
  exact ⟨sized.layout,sized.quiet,sized.positive,sized.root,sized.index,sized.taken,sized.distinct⟩

theorem twoBlocksTables : Tables ⟨64,16,1,1,10,53,Mkfs.fsMagicNr⟩ (flat twoBlocksDisk.view 64) := by
  have super : superOf twoBlocksDisk.view = ⟨64,16,1,1,10,53,Mkfs.fsMagicNr⟩ := by decide +kernel
  refine ⟨?_,super,fun _ _ _ => rfl⟩
  rw [← super]
  exact twoBlocksMapping.layout

theorem twoBlocksWritten : ∃ s k, run cacheLayer (inodeWrite 0 (List.replicate 110 7) 500)
    ⟨boot twoBlocksDisk.view 64,emptyFile.withInode 0 twoBlocks⟩ =
      .ok (110,⟨s,k⟩) ∧ fileByte (cachedView s) (mapped twoBlocksDisk.view twoBlocks) 609 = 7 := by
  have matched : Matches (boot twoBlocksDisk.view 64) (flat twoBlocksDisk.view 64) := bootMatches twoBlocksDisk.view 64
  have fixed : Fixed 0 (mapped twoBlocksDisk.view twoBlocks) 2 ⟨flat twoBlocksDisk.view 64,emptyFile.withInode 0 twoBlocks⟩ := by
    refine mappingFixed (s := ⟨flat twoBlocksDisk.view 64,emptyFile.withInode 0 twoBlocks⟩) twoBlocksMapping ?_ (by decide) (by decide)
      (by decide)
    rw [twoBlocksTables.super]
    decide
  have written := writeReadBytes matched fixed twoBlocksTables (by decide) (by decide) (by decide) (List.replicate 110 7) 500 (by decide)
    (by decide) (by decide)
  rcases written with stuck | ⟨s,k,ran,bytes,_,_⟩
  · exact absurd stuck (smallReady (by decide) (by decide +kernel))
  · exact ⟨s,k,ran,bytes 609 (by decide)⟩

end TskSw.FileBytes
