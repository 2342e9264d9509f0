import TskSw.FsKeeps

/-! Reading and writing the bytes of a file. Within its direct blocks a file takes blocks
that belong to nobody, and what is stored there is seen by no other inode. -/
namespace TskSw.FileData
open Bytes BlockProgram BlkIo BlkFlat FsLayout FsKernel DataBitmap DataBlocks Bmap Inodes InodeIo Directory FsCalls FsTree FsSteps FsKeeps

variable {owed : Option (BitVec 32)} {s u : State} {ip : Nat} {inum : BitVec 32} {counts : BitVec 64}

section Blocks
variable {t : Disk} {n b f : Nat}

theorem asideSound {v k} (h : Sound owed s) (evolves : Evolves s.disk v) (same : SameRoot s.disk v)
    (records : ∀ m, m.toNat < (superOf s.disk.view).sNinodes.toNat → diskInode v.view m = diskInode s.disk.view m)
    (cache : (∀ j, 0 < (s.mem.inode j).ref → Slot v (s.mem.inode j)) → Cached v k) : Sound owed ⟨v,k⟩ := by
  have kept : ∀ m, m.toNat < (superOf s.disk.view).sNinodes.toNat → stored v.view m = stored s.disk.view m := by
    intro m numbered
    rw [stored,records m numbered]
    rfl
  refine ⟨rootedSame h.disk evolves same (fun m numbered other => ?_) fun m numbered mode => ?_,cache fun j used => ?_⟩
  · rw [kept m numbered]
    exact h.disk.plain m numbered other
  · rw [kept m numbered] at mode ⊢
    exact h.disk.links m numbered mode
  · have slot := h.cache.slot j used
    exact slotSame evolves same slot (kept _ slot.number)

theorem rootTaken (h : Rooted owed t) (direct : n < fsIaddrDirectNr) (some : addrAt (rootOf t.view).iAddr n ≠ 0) :
    Taken t.view (addrAt (rootOf t.view).iAddr n).toNat := by
  have place : mapped t.view (rootOf t.view) n = (addrAt (rootOf t.view).iAddr n).toNat := by rw [mapped,if_pos direct]
  rw [← place]
  refine h.listing.mapping.taken n (direct.trans_le (by decide)) ?_
  rw [place]
  intro zero
  exact some (BitVec.eq_of_toNat_eq (by simpa using zero))

theorem storeSound (h : Sound owed s) (apart : Apart s.disk.view b) (d : Block) :
    Sound owed ⟨s.disk.store b d,s.mem⟩ ∧ Evolves s.disk (s.disk.store b d) := by
  have view : ∀ c, c ≠ b → (s.disk.store b d).view c = s.disk.view c := fun c other => by simp [Disk.store,other]
  have high := takenTables h.disk apart.1
  have evolves : Evolves s.disk (s.disk.store b d) := storeEvolves h.disk evolvesRefl apart.1 rfl rfl fun c other _ => view c other
  have records : ∀ m, m.toNat < (superOf s.disk.view).sNinodes.toNat → diskInode (s.disk.store b d).view m = diskInode s.disk.view m := by
    intro m numbered
    have below := inodeBlockTable numbered
    exact diskInodeAgree evolves.super (view _ (by omega))
  have same : SameRoot s.disk (s.disk.store b d) := by
    refine ⟨?_,fun n direct _ => view _ (apart.2 n direct)⟩
    rw [rootOf,stored,records rootIno h.disk.listing.number]
    rfl
  exact ⟨asideSound h evolves same records fun slots => ⟨h.cache.inside,slots,h.cache.unique⟩,evolves⟩

theorem allocatedRecords (h : Rooted owed t) (bound : f < (superOf t.view).sNblocks.toNat) {m}
    (numbered : m.toNat < (superOf t.view).sNinodes.toNat) : diskInode (allocated t f).view m = diskInode t.view m := by
  have layout := h.listing.mapping.layout
  have low : (superOf t.view).inodeStart ≤ inodeBlock (superOf t.view) m := Nat.le_add_right _ _
  have start := inodeBlockLow (rootedTables h) m
  have block := bitmapBlock layout (show f < _ by have := layout.blockMap; omega)
  refine diskInodeAgree (allocatedSuper layout bound) ?_
  rw [allocatedView layout bound (by omega) (inodeBlockTable numbered),setMapView (by omega)]

theorem allocatedRoot (h : Rooted owed t) (bound : f < (superOf t.view).sNblocks.toNat) (clear : dataBit t.view f = false) :
    SameRoot t (allocated t f) := by
  refine ⟨?_,fun n direct some => ?_⟩
  · have numbered : rootIno.toNat < (superOf t.view).sNinodes.toNat := h.listing.number
    rw [rootOf,stored,allocatedRecords h bound numbered]
    rfl
  · obtain ⟨j,inside,place,bit⟩ := rootTaken h direct some
    rw [place]
    exact allocatedData h.listing.mapping.layout bound inside (by rintro rfl; rw [bit] at clear; cases clear)

theorem freshApart (h : Rooted owed t) (bound : f < (superOf t.view).sNblocks.toNat) (reach : reachable f)
    (clear : dataBit t.view f = false) : Apart (allocated t f).view ((superOf t.view).sFirstdataBlock.toNat + f) := by
  have layout := h.listing.mapping.layout
  have same := allocatedRoot h bound clear
  refine ⟨freshTaken layout bound reach,fun n direct hit => ?_⟩
  rw [same.root] at hit
  have some : addrAt (rootOf t.view).iAddr n ≠ 0 := by
    intro zero
    rw [zero] at hit
    have := h.listing.mapping.positive
    have nothing : (0 : BitVec 64).toNat = 0 := rfl
    omega
  obtain ⟨j,_,place,bit⟩ := rootTaken h direct some
  have : j = f := by omega
  rw [this,clear] at bit
  cases bit

theorem withAddrHere {x : Inode} (inside : n < fsIaddrNr) (small : b < 2^64) : (addrAt (x.withAddr ⟨n,inside⟩ b).iAddr n).toNat = b := by
  simp only [addrAt,dif_pos inside,Inode.withAddr,Function.update_self,BitVec.toNat_ofNat]
  exact Nat.mod_eq_of_lt small

theorem freshSound (h : Sound owed s) (held : Held s ip inum) (other : inum ≠ rootIno) (direct : n < fsIaddrDirectNr)
    (bound : f < (superOf s.disk.view).sNblocks.toNat) (reach : reachable f) (clear : dataBit s.disk.view f = false)
    (inside : n < fsIaddrNr) :
    Sound owed ⟨allocated s.disk f,s.mem.withInode ip ((s.mem.inode ip).withAddr ⟨n,inside⟩
      ((superOf s.disk.view).sFirstdataBlock.toNat + f))⟩ ∧
      Evolves s.disk (allocated s.disk f) := by
  have slot := h.cache.slot ip held.used
  have plain := heldOther h held other
  have evolves := allocatedEvolves h.disk bound reach
  have same := allocatedRoot h.disk bound clear
  have fresh := freshApart h.disk bound reach clear
  have small : (superOf s.disk.view).sFirstdataBlock.toNat + f < 2^64 := by
    have := (superOf s.disk.view).sFirstdataBlock.isLt
    have := (superOf s.disk.view).sNblocks.isLt
    omega
  refine ⟨asideSound h evolves same (fun m => allocatedRecords h.disk bound) fun slots => ?_,evolves⟩
  refine cachedKeep h.cache (fun j _ => slots j) (fun _ => held.used) rfl fun _ => ?_
  have kept := slots ip held.used
  refine ⟨kept.device,kept.number,kept.bit,fun valid => kept.same valid,fun _ root => absurd (held.number.symm.trans root) other,fun _ _ => ?_⟩
  refine ⟨plain.mode,plain.size,fun m some => ?_⟩
  by_cases here : m = n
  · subst here
    rw [withAddrHere inside small]
    exact ⟨direct,fresh⟩
  · rw [addrWith here] at some ⊢
    exact (plain.addr m some).imp id (apartSame evolves same)

theorem bmapSound (h : Sound owed s) (held : Held s ip inum) (other : inum ≠ rootIno) (direct : n < fsIaddrDirectNr)
    (ok : run diskLayer (bmap ip n) s = .ok (b,u)) :
    Sound owed u ∧ Held u ip inum ∧ Evolves s.disk u.disk ∧ Apart u.disk.view b ∧ (u.mem.inode ip).iSize = (s.mem.inode ip).iSize := by
  have plain := heldOther h held other
  have got := gotDirect (h.cache.slot ip held.used).device direct ok
  obtain ⟨v,k⟩ := u
  dsimp only at got
  cases got with
  | old hit =>
    rw [mapped,if_pos direct] at hit ⊢
    refine ⟨h,held,evolvesRefl,(plain.addr n fun zero => hit ?_).2,rfl⟩
    rw [zero]
    rfl
  | @fresh f _ none bound reach clear =>
    obtain ⟨sound,evolves⟩ := freshSound h held other direct bound reach clear (direct.trans (by decide))
    have here : ∀ x, (s.mem.withInode ip x).inode ip = x := by simp [Kernel.withInode]
    refine ⟨sound,⟨?_,?_,?_⟩,evolves,freshApart h.disk bound reach clear,?_⟩
    all_goals rw [here]
    · exact held.used
    · exact held.valid
    · exact held.number
    · rfl

end Blocks

def directBytes : Nat := fsIaddrDirectNr*bsize

section Loops
variable {blk off : Nat} {dev : BitVec 64} {α : Type} {a : α}

theorem peekOk {q : Block → Fs α}
    (ok : run diskLayer (do bread dev blk; let d ← blockData blk; releaseBlock blk; q d) s = .ok (a,u)) :
    run diskLayer (q (s.disk.view blk)) s = .ok (a,u) := by
  obtain ⟨_,v,read,ok⟩ := runCut ok
  obtain ⟨_,idle,rfl⟩ := runBreadOk read
  simpa only [runBind,runData,followOk,runRelease idle.free _ rfl] using ok

theorem pokeOk {g : Block → Block} {q : Fs α}
    (ok : run diskLayer (do bread dev blk; let d ← blockData blk; setBlock blk (g d); writeBlock blk; releaseBlock blk; q) s = .ok (a,u)) :
    run diskLayer q ⟨s.disk.store blk (g (s.disk.view blk)),s.mem⟩ = .ok (a,u) := by
  obtain ⟨_,v,read,ok⟩ := runCut ok
  obtain ⟨_,idle,rfl⟩ := runBreadOk read
  have free := (idleStore idle (m := blk) (g (s.disk.view blk))).free
  simpa only [runBind,runData,runSet,runWrite,followOk,runRelease free _ (storeView _).symm] using ok

theorem readLoopSound {passes remains bytes} (h : Sound owed s) (held : Held s ip inum) (other : inum ≠ rootIno)
    (inside : off + remains ≤ directBytes) (ok : run diskLayer (readLoop ip passes off remains) s = .ok (bytes,u)) :
    Sound owed u ∧ Evolves s.disk u.disk := by
  induction passes generalizing s off remains bytes with
  | zero =>
    cases ok
    exact ⟨h,evolvesRefl⟩
  | succ passes ih =>
    unfold readLoop at ok
    split at ok
    · cases ok
      exact ⟨h,evolvesRefl⟩
    rename_i more
    split at ok
    · cases ok
    obtain ⟨b,v,map,ok⟩ := runCut ok
    have direct : off/bsize < fsIaddrDirectNr := by
      simp only [directBytes,bsize,fsIaddrDirectNr] at inside ⊢
      omega
    obtain ⟨sound,mine,evolves,_⟩ := bmapSound h held other direct map
    obtain ⟨x,_,get,ok⟩ := runCut ok
    cases get
    obtain ⟨rest,w,loop,ok⟩ := runCut (peekOk ok)
    cases ok
    obtain ⟨sound,evolves'⟩ := ih sound mine (by omega) loop
    exact ⟨sound,evolvesTrans evolves evolves'⟩

theorem writeLoopSound {passes} {src : List UInt8} {a} (h : Sound owed s) (held : Held s ip inum) (other : inum ≠ rootIno)
    (inside : off + src.length ≤ directBytes) (ok : run diskLayer (writeLoop ip passes off src) s = .ok (a,u)) :
    Sound owed u ∧ Held u ip inum ∧ Evolves s.disk u.disk := by
  induction passes generalizing s off src with
  | zero =>
    cases ok
    exact ⟨h,held,evolvesRefl⟩
  | succ passes ih =>
    unfold writeLoop at ok
    split at ok
    · cases ok
      exact ⟨h,held,evolvesRefl⟩
    rename_i more
    have positive : 0 < src.length := List.length_pos_of_ne_nil more
    split at ok
    · cases ok
    obtain ⟨b,v,map,ok⟩ := runCut ok
    have direct : off/bsize < fsIaddrDirectNr := by
      simp only [directBytes,bsize,fsIaddrDirectNr] at inside ⊢
      omega
    obtain ⟨sound,mine,evolves,apart,_⟩ := bmapSound h held other direct map
    obtain ⟨x,_,get,ok⟩ := runCut ok
    cases get
    have ok := pokeOk (g := fun d => patch d (off%bsize) (src.take (min src.length (bsize - off%bsize)))) ok
    obtain ⟨sound,evolves'⟩ := storeSound sound apart (patch (v.disk.view b) (off%bsize) (src.take (min src.length (bsize - off%bsize))))
    obtain ⟨sound,mine,evolves''⟩ := ih sound ⟨mine.used,mine.valid,mine.number⟩ (by rw [List.length_drop]; omega) ok
    exact ⟨sound,mine,evolvesTrans evolves (evolvesTrans evolves' evolves'')⟩

theorem growSound {size a} (h : Sound owed s) (held : Held s ip inum) (other : inum ≠ rootIno)
    (small : size.toNat ≤ fsMaxfileSize) (ok : run diskLayer (grow ip size) s = .ok (a,u)) : Sound owed u ∧ Evolves s.disk u.disk := by
  obtain ⟨x,_,get,ok⟩ := runCut ok
  cases get
  split at ok
  · obtain ⟨_,v,edit,update⟩ := runCut ok
    have slot := h.cache.slot ip held.used
    have plain := heldOther h held other
    have number := slot.number
    rw [held.number] at number
    obtain ⟨mode,nlink,_⟩ := slotMode slot held.valid
    rw [held.number] at mode nlink
    obtain rfl := updateRuns (y := {s.mem.inode ip with iSize := size}) h held held.number slot.device edit update
    obtain ⟨sound,_,evolves⟩ := updateSound (y := {s.mem.inode ip with iSize := size}) h held other held.number slot.device rfl held.valid
      ⟨plain.mode,small,plain.addr⟩ (fun _ _ => Iff.rfl) fun file => by
        rw [nlink]
        exact h.disk.links inum number (mode.symm.trans file)
    exact ⟨sound,evolves⟩
  · cases ok
    exact ⟨h,evolvesRefl⟩

end Loops

section Inodes
variable {off : BitVec 64}

theorem inodeWriteSound {src rc} (h : Sound owed s) (held : Held s ip inum) (other : inum ≠ rootIno)
    (inside : off.toNat + src.length ≤ directBytes) (ok : run diskLayer (inodeWrite ip src off) s = .ok (rc,u)) :
    Sound owed u ∧ Evolves s.disk u.disk := by
  rcases inodeWriteRan ok with ⟨_,rfl⟩ | ⟨v,loop,last⟩
  · exact ⟨h,evolvesRefl⟩
  obtain ⟨sound,mine,evolves⟩ := writeLoopSound h held other inside loop
  rcases last with ⟨_,grown⟩ | ⟨_,rfl⟩
  · have small : (off + BitVec.ofNat 64 src.length).toNat ≤ fsMaxfileSize := by
      have bound : directBytes ≤ fsMaxfileSize := by decide
      rw [BitVec.toNat_add,BitVec.toNat_ofNat]
      omega
    obtain ⟨sound,evolves'⟩ := growSound sound mine other small grown
    exact ⟨sound,evolvesTrans evolves evolves'⟩
  · exact ⟨sound,evolves⟩

theorem clipped {size} (start : ¬ (size < off ∨ off + counts < off))
    (near : size.toNat ≤ directBytes ∨ off.toNat + counts.toNat ≤ directBytes) :
    off.toNat + (if size < off + counts then size - off else counts).toNat ≤ directBytes ∧
      off.toNat + (if size < off + counts then size - off else counts).toNat ≤ size.toNat := by
  have wide := off.isLt
  have wide' := counts.isLt
  have wide'' := size.isLt
  simp only [not_or,BitVec.lt_def,BitVec.toNat_add] at start ⊢
  split
  · rw [BitVec.toNat_sub]
    omega
  · omega

theorem rootLoop {passes remains at_ bytes} (h : Sound owed s) (held : Held s ip rootIno)
    (inside : at_ + remains ≤ (s.mem.inode ip).iSize.toNat) (ok : run diskLayer (readLoop ip passes at_ remains) s = .ok (bytes,u)) : u = s := by
  have listing := heldListing h held
  induction passes generalizing at_ remains bytes with
  | zero =>
    cases ok
    rfl
  | succ passes ih =>
    unfold readLoop at ok
    split at ok
    · cases ok
      rfl
    rename_i more
    split at ok
    · cases ok
    have limit := listing.limit
    have small : at_/bsize < mappable := by
      simp only [mappable,fsMaxfileSize,fsIaddrDirectNr,fsIaddrInDirectNr,fsIaddrDoubleNr,iaddrsPerBlock,bsize] at limit ⊢
      omega
    have hit := listing.filled (at_/bsize) (by simp only [bsize]; omega)
    obtain ⟨b,v,map,ok⟩ := runCut ok
    have same := runMapped (k := s.mem) listing.mapping small hit
    rw [show (⟨s.disk,s.mem⟩ : State) = s from rfl,map] at same
    cases same
    obtain ⟨x,_,get,ok⟩ := runCut ok
    cases get
    obtain ⟨rest,w,loop,ok⟩ := runCut (peekOk ok)
    cases ok
    exact ih (by omega) loop

theorem inodeReadSound {r} (h : Sound owed s) (held : Held s ip inum)
    (near : (s.mem.inode ip).iSize.toNat ≤ directBytes ∨ off.toNat + counts.toNat ≤ directBytes)
    (ok : run diskLayer (inodeRead ip off counts) s = .ok (r,u)) : Sound owed u ∧ Evolves s.disk u.disk := by
  obtain ⟨x,_,get,ok⟩ := runCut ok
  cases get
  obtain ⟨_,_,assertion,ok⟩ := runCut ok
  rw [(runKassertOk assertion).2] at ok
  split at ok
  · cases ok
    exact ⟨h,evolvesRefl⟩
  rename_i start
  obtain ⟨bytes,v,loop,ok⟩ := runCut ok
  cases ok
  obtain ⟨direct,inside⟩ := clipped start near
  by_cases root : inum = rootIno
  · subst root
    rw [rootLoop h held inside loop]
    exact ⟨h,evolvesRefl⟩
  · exact readLoopSound h held root direct loop

end Inodes

section Files
variable {f : Fin maxFdTableSize} {src : List UInt8} {fd : Int}

theorem keepsHandle {dev} : Keeps (devswGetHandle dev) := by
  refine keepsThen keepsAssert fun _ => ?_
  split
  · exact keepsAbort
  split
  · exact keepsPure
  split
  · exact keepsPure
  · exact keepsPure

theorem keepsConsole : Keeps (consoleRead counts) := by
  intro s r u h ok
  obtain ⟨k,_,get,ok⟩ := runCut ok
  cases get
  split at ok
  · cases ok
  · cases ok
    exact keptDisk (soundInodes h rfl) rfl

def Readable (view : Nat → Block) (k : Kernel) (f : Fin maxFdTableSize) (counts : Nat) : Prop :=
  ∀ ip, (k.file f).fInode = some ip →
    (stored view (k.inode ip).inum).iSize.toNat ≤ directBytes ∨ (k.file f).fOffset.toNat + counts ≤ directBytes

def Writable (k : Kernel) (f : Fin maxFdTableSize) (counts : Nat) : Prop :=
  (k.file f).fFlags &&& fwrite = 0 ∨ ∀ ip, (k.file f).fInode = some ip →
    (k.inode ip).inum ≠ rootIno ∧ (k.file f).fOffset.toNat + counts ≤ directBytes

theorem fileReadSound {r} (h : Sound none s) (near : Readable s.disk.view s.mem f counts.toNat)
    (ok : run diskLayer (fdFileRead f counts) s = .ok (r,u)) : Sound none u ∧ Evolves s.disk u.disk := by
  obtain ⟨k,_,get,ok⟩ := runCut ok
  cases get
  split at ok
  · cases ok
    exact keptDisk h rfl
  split at ok
  · cases ok
  rename_i ip file
  obtain ⟨_,v,lock,ok⟩ := runCut ok
  obtain ⟨sound,disk,held,_⟩ := lockSound h lock
  obtain ⟨x,_,get,ok⟩ := runCut ok
  cases get
  rw [← disk]
  split at ok
  · refine (show Keeps _ from ?_) v r u sound ok
    refine keepsThen keepsHandle fun driver => ?_
    cases driver with
    | unregistered => exact keepsThen keepsUnlock fun _ => keepsPure
    | root => exact keepsAbort
    | console =>
      exact keepsThen keepsUnlock fun _ => keepsThen keepsConsole fun _ => keepsThen keepsLock fun _ => keepsThen keepsUnlock fun _ => keepsPure
  · obtain ⟨pair,w,read,ok⟩ := runCut ok
    obtain ⟨_,_,size⟩ := slotMode (sound.cache.slot ip held.used) held.valid
    have direct := near ip file
    rw [← disk,← held.number,← size] at direct
    obtain ⟨sound,evolves⟩ := inodeReadSound sound held direct read
    obtain ⟨done,evolves'⟩ : Sound none u ∧ Evolves w.disk u.disk := by
      refine (show Keeps _ from ?_) w r u sound ok
      dsimp only
      split
      · exact keepsThen keepsEditFile fun _ => keepsThen keepsUnlock fun _ => keepsPure
      · exact keepsThen keepsUnlock fun _ => keepsPure
    exact ⟨done,evolvesTrans evolves evolves'⟩

theorem fileWriteSound {r} (h : Sound none s) (near : Writable s.mem f src.length)
    (ok : run diskLayer (fdFileWrite f src) s = .ok (r,u)) : Sound none u ∧ Evolves s.disk u.disk := by
  obtain ⟨k,_,get,ok⟩ := runCut ok
  cases get
  split at ok
  · cases ok
    exact keptDisk h rfl
  rename_i allowed
  split at ok
  · cases ok
  rename_i ip file
  obtain ⟨other,inside⟩ := near.resolve_left allowed ip file
  obtain ⟨_,v,lock,ok⟩ := runCut ok
  obtain ⟨sound,disk,held,_⟩ := lockSound h lock
  obtain ⟨x,_,get,ok⟩ := runCut ok
  cases get
  rw [← disk]
  split at ok
  · refine (show Keeps _ from ?_) v r u sound ok
    refine keepsThen keepsHandle fun driver => ?_
    cases driver with
    | unregistered => exact keepsThen keepsUnlock fun _ => keepsPure
    | root => exact keepsAbort
    | console =>
      exact keepsThen keepsUnlock fun _ => keepsThen keepsPure fun _ => keepsThen keepsLock fun _ => keepsThen keepsUnlock fun _ => keepsPure
  · obtain ⟨count,w,write,ok⟩ := runCut ok
    obtain ⟨sound,evolves⟩ := inodeWriteSound sound held other inside write
    obtain ⟨done,evolves'⟩ : Sound none u ∧ Evolves w.disk u.disk := by
      refine (show Keeps _ from ?_) w r u sound ok
      split
      · exact keepsThen keepsEditFile fun _ => keepsThen keepsUnlock fun _ => keepsPure
      · exact keepsThen keepsUnlock fun _ => keepsPure
    exact ⟨done,evolvesTrans evolves evolves'⟩

theorem openFileOk {r} (ok : run diskLayer (openFile fd) s = .ok (r,u)) :
    u = s ∧ ∀ f, r = .ok f → s.mem.fds s.mem.current fd.toNat = some f := by
  unfold openFile at ok
  split at ok
  · cases ok
    exact ⟨rfl,fun f wrong => by cases wrong⟩
  obtain ⟨k,_,get,ok⟩ := runCut ok
  cases get
  split at ok
  · cases ok
    exact ⟨rfl,fun f wrong => by cases wrong⟩
  · rename_i f file
    cases ok
    exact ⟨rfl,fun g same => by cases same; exact file⟩

theorem readSound {r} (h : Sound none s)
    (near : ∀ f, s.mem.fds s.mem.current fd.toNat = some f → Readable s.disk.view s.mem f counts.toNat)
    (ok : run diskLayer (fsRead fd counts) s = .ok (r,u)) : Sound none u ∧ Evolves s.disk u.disk := by
  obtain ⟨found,v,file,ok⟩ := runCut ok
  obtain ⟨rfl,named⟩ := openFileOk file
  cases found with
  | error rc =>
    cases ok
    exact keptDisk h rfl
  | ok f =>
    obtain ⟨_,w,read,ok⟩ := runCut ok
    cases ok
    exact fileReadSound h (near f (named f rfl)) read

theorem writeSound {rc} (h : Sound none s)
    (near : ∀ f, s.mem.fds s.mem.current fd.toNat = some f → Writable s.mem f src.length)
    (ok : run diskLayer (fsWrite fd src) s = .ok (rc,u)) : Sound none u ∧ Evolves s.disk u.disk := by
  obtain ⟨found,v,file,ok⟩ := runCut ok
  obtain ⟨rfl,named⟩ := openFileOk file
  cases found with
  | error rc =>
    cases ok
    exact keptDisk h rfl
  | ok f =>
    obtain ⟨_,w,write,ok⟩ := runCut ok
    cases ok
    exact fileWriteSound h (near f (named f rfl)) write

end Files
end TskSw.FileData
