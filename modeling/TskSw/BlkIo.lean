import TskSw.BlockProgram
import TskSw.Bytes

/-! The buffer cache of `dev/blkio.c` over the pseudo IDE disk of `dev/memide.c`, as
one thread runs it: nobody else releases a buffer, so waiting for one never ends.
The image is addressed in blocks, since `memide_rw` only asks for whole ones. -/
namespace TskSw.BlkIo
open Bytes BlockProgram

def bsize : Nat := 512
def nbuf : Nat := 1024
def blkDevNodev : Nat := 2^64 - 1
def rootDev : Nat := 1
def consDev : Nat := 2
abbrev devswDevicesNr : Nat := 8

abbrev Block := Buf bsize

inductive Fault where
  | assertion | panic | noBuffers | outOfBounds | nullPointer | stale | sleeps | noDevice
  deriving DecidableEq, Repr

structure BlkBuf where
  busy : Bool
  valid : Bool
  dirty : Bool
  dev : Nat
  blockno : Nat
  data : Block

def BlkBuf.holds (b : BlkBuf) (dev blockno : Nat) : Bool := b.dev == dev && b.blockno == blockno

structure Cache where
  buf : Nat → BlkBuf
  mru : List Nat

def Cache.set (c : Cache) (i : Nat) (b : BlkBuf) : Cache := {c with buf := Function.update c.buf i b}

def Cache.search (c : Cache) (dev blockno : Nat) : Option Nat :=
  c.mru.find? (fun i => (c.buf i).holds dev blockno)

def Cache.reusable (c : Cache) : Option Nat :=
  c.mru.reverse.find? (fun i => !(c.buf i).busy && !(c.buf i).dirty)

def bufferCacheBlkGet (dev blockno : Nat) (c : Cache) : Except Fault (Nat × Cache) :=
  match c.search dev blockno with
  | some i => if (c.buf i).busy then .error .sleeps else .ok (i,c.set i {c.buf i with busy := true})
  | none =>
    match c.reusable with
    | some i => .ok (i,c.set i
        {c.buf i with dev := dev, blockno := blockno, busy := true, valid := false, dirty := false})
    | none => .error .noBuffers

structure Store where
  cache : Cache
  image : Nat → Block
  blocks : Nat

def memideReadSector (i : Nat) (s : Store) : Store :=
  let b := s.cache.buf i
  {s with cache := s.cache.set i {b with data := s.image b.blockno}}

def memideWriteSector (i : Nat) (s : Store) : Store :=
  let b := s.cache.buf i
  {s with image := Function.update s.image b.blockno b.data}

def memideRw (drvDev i : Nat) (s : Store) : Except Fault Store :=
  let b := s.cache.buf i
  if !b.busy then .error .assertion
  else if drvDev ≠ b.dev then .ok s
  else if s.blocks ≤ b.blockno then .error .outOfBounds
  else if b.dirty then .ok (memideWriteSector i s)
  else .ok (memideReadSector i s)

def blkrw (i : Nat) (s : Store) : Except Fault Store :=
  let dev := (s.cache.buf i).dev
  if devswDevicesNr < dev then .error .assertion
  else if dev = devswDevicesNr then .error .outOfBounds
  else if dev = rootDev then memideRw rootDev i s
  else if dev = consDev then .ok s
  else .error .assertion

def bufferCacheBlkRead (dev blockno : Nat) (s : Store) : Except Fault (Nat × Store) := do
  let (i,c) ← bufferCacheBlkGet dev blockno s.cache
  let s := {s with cache := c}
  if !(c.buf i).valid then
    let s ← blkrw i s
    .ok (i,s)
  else .ok (i,s)

def bufferCacheBlkWrite (i : Nat) (s : Store) : Except Fault Store :=
  let b := s.cache.buf i
  if !b.busy then .error .assertion
  else blkrw i {s with cache := s.cache.set i {b with dirty := true}}

def bufferCacheBlkRelease (i : Nat) (s : Store) : Except Fault Store :=
  let b := s.cache.buf i
  if !b.busy then .error .panic
  else .ok {s with cache := ⟨Function.update s.cache.buf i {b with busy := false},
    i :: s.cache.mru.erase i⟩}

def emptyBuf : BlkBuf := ⟨false,false,false,blkDevNodev,0,fun _ => 0⟩

def bufferCacheInit : Cache := ⟨fun _ => emptyBuf,(List.range nbuf).reverse⟩

def boot (image : Nat → Block) (blocks : Nat) : Store := ⟨bufferCacheInit,image,blocks⟩

def held (s : Store) (blockno : Nat) : Except Fault Nat :=
  match s.cache.mru.find? (fun i => (s.cache.buf i).holds rootDev blockno && (s.cache.buf i).busy) with
  | some i => .ok i
  | none => .error .stale

def cacheLayer : Layer Store Nat Block Fault where
  read n s := do
    let (_,s) ← bufferCacheBlkRead rootDev n s
    .ok s
  data n s := do
    let i ← held s n
    .ok (s.cache.buf i).data
  set n d s := do
    let i ← held s n
    .ok {s with cache := s.cache.set i {s.cache.buf i with data := d}}
  write n s := do
    let i ← held s n
    bufferCacheBlkWrite i s
  release n s := do
    let i ← held s n
    bufferCacheBlkRelease i s

end TskSw.BlkIo
