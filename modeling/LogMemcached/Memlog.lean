import LogMemcached.Item
import LogMemcached.Lib.Tiling

/-!
# The log allocator

`memlog.c`: a ring of `mem_limit` bytes from which records are cut at `mem_current` and reclaimed
at `mem_current_freeing`.  Pointers into the log are offsets from `mem_base`.  The cleaner is given
here by what it does to the log; evicting the linked item of a record it passes is done in
`LogMemcached.Store`.
-/

namespace LogMemcached

open ByteMem CText

/-- The static variables of `memlog.c` and the memory they point into. -/
structure Memlog where
  memLimit : ℕ
  mem : Mem
  memCurrent : ℕ
  memAvail : ℕ
  memFreeFromBeginning : ℕ
  memCurrentFreeing : ℕ

/-- `memlog_init`, for a log of `limit` bytes. -/
def memlogInit (limit : ℕ) : Memlog where
  memLimit := limit
  mem := fun _ => 0
  memCurrent := 0
  memAvail := limit
  memFreeFromBeginning := 0
  memCurrentFreeing := 0

/-! ## Allocation -/

/-- `nbytes` of a cycle record.  The comments of the source split one subtraction over several
lines, but each line also ends in `/`, so that the terms after `num` divide it. -/
def cycleNbytes (avail : ℕ) : ℕ :=
  let num := (decimalInt (Int.bmod (avail - 16 - 2 - 4) (2 ^ 32))).length
  (avail - num / (2 ^ 64 - 16) / (2 ^ 64 - 2) / (2 ^ 64 - 4) / (2 ^ 64 - 2)) % 2 ^ 32

/-- The header a wrap writes at `mem_current`. -/
def writeCycle (m : Mem) (o avail : ℕ) : Mem :=
  let m := setFlags m o (flagsOf m o ||| itemDirty)
  let m := setFlags m o (flagsOf m o ||| itemCycle)
  let m := write m (o + 10) [1]
  let m := write m (o + 4) (le32 (cycleNbytes avail))
  markStored m o

/-- The test of `memory_allocate` for the end of the log; 35 is its minimal record size. -/
def Memlog.nearEnd (l : Memlog) (size : ℕ) : Bool :=
  (l.memCurrent + size) % 2 ^ 64 > l.memLimit - 35

/-- Write the cycle record and start over from `mem_base`. -/
def Memlog.wrap (l : Memlog) : Memlog :=
  { l with
    mem := writeCycle l.mem l.memCurrent l.memAvail
    memCurrent := 0
    memAvail := l.memFreeFromBeginning
    memFreeFromBeginning := 0 }

/-- The log after the test for its end, with which every allocation begins. -/
def Memlog.turn (l : Memlog) (size : ℕ) : Memlog := if l.nearEnd size then l.wrap else l

/-- `memory_allocate`, the body of `memlog_alloc`. -/
def memoryAllocate (l : Memlog) (size : ℕ) : Memlog × Option ℕ :=
  let l := l.turn size
  if size > l.memAvail then (l, none)
  else
    ({ l with memCurrent := l.memCurrent + size, memAvail := l.memAvail - size },
      some l.memCurrent)

/-- The attempts of `do_item_alloc`: `n` calls of `memlog_alloc` until one succeeds. -/
def memlogAllocRetry : ℕ → Memlog → ℕ → Memlog × Option ℕ
  | 0, l, _ => (l, none)
  | n + 1, l, size =>
      match memoryAllocate l size with
      | (l, some o) => (l, some o)
      | (l, none) => memlogAllocRetry n l size

/-! ## Cleaning -/

/-- The number of bytes by which `memlog_free_item` steps over the record at `o`. -/
def freeSize (m : Mem) (o : ℕ) : ℕ :=
  let flags := flagsOf m o
  let ntotal := itemNtotal m o % 2 ^ 32
  if has flags itemCorrupted || has flags itemDeleted then ntotal
  else if has flags itemCycle then nbytesOf m o
  else ntotal

/-- `memlog_free_item`: zero the record at `mem_current_freeing` and step over it. -/
def Memlog.freeItem (l : Memlog) : Memlog × ℕ :=
  let ntotal := freeSize l.mem l.memCurrentFreeing
  ({ l with
      mem := fill l.mem l.memCurrentFreeing ntotal 0
      memCurrentFreeing := l.memCurrentFreeing + ntotal }, ntotal)

/-- The bytes one call of the cleaner wants to free. -/
def Memlog.toFree (l : Memlog) : ℕ := l.memLimit / 8 % 2 ^ 32

/-- `memlog_free_chunk`.  Every turn that frees a byte brings the loop closer to its end, so
running out of `toFree + 1` turns means that the loop spins on a record of length zero. -/
def Memlog.freeChunk : ℕ → Memlog → ℕ → Option (Memlog × ℕ)
  | 0, _, _ => none
  | fuel + 1, l, freed =>
      if freed < l.toFree then
        if l.memCurrentFreeing % 2 ^ 32 ≥ l.memLimit then some (l, freed)
        else
          let (l, n) := l.freeItem
          l.freeChunk fuel ((freed + n) % 2 ^ 32)
      else some (l, freed)

/-- The accounting of `do_memlog_clean` after a chunk of `freed` bytes. -/
def Memlog.settle (l : Memlog) (freed : ℕ) : Memlog :=
  if freed = 0 then l
  else
    let l :=
      if l.memCurrent ≤ l.memCurrentFreeing then { l with memAvail := l.memAvail + freed }
      else { l with memFreeFromBeginning := l.memFreeFromBeginning + freed }
    if l.memCurrentFreeing ≥ l.memLimit then { l with memCurrentFreeing := 0 } else l

/-- `memlog_clean` on the log: the new log and the bytes freed; `none` when it never returns. -/
def Memlog.clean (l : Memlog) : Option (Memlog × ℕ) :=
  (l.freeChunk (l.toFree + 1) 0).map fun r => (r.1.settle r.2, r.2)

/-- The condition under which `lru_maintainer_free` calls the cleaner. -/
def lruMaintainerGuard (l : Memlog) : Bool :=
  l.memAvail % 2 ^ 32 ≤ l.memLimit % 2 ^ 32 / 4 &&
    l.memFreeFromBeginning % 2 ^ 32 ≤ l.memLimit % 2 ^ 32 / 4

/-! ## The wrap header -/

theorem length_decimalInt_bmod_le (z : ℤ) : (decimalInt (Int.bmod z (2 ^ 32))).length ≤ 11 := by
  have small : (Int.bmod z (2 ^ 32)).natAbs < 10 ^ 10 := by
    have h1 := Int.le_bmod (x := z) (m := 2 ^ 32) (by norm_num)
    have h2 := Int.bmod_lt (x := z) (m := 2 ^ 32) (by norm_num)
    omega
  have := length_decimal_le (by norm_num) small
  unfold decimalInt
  split_ifs
  · rw [List.length_cons]
    omega
  · omega

theorem cycleNbytes_eq (avail : ℕ) : cycleNbytes avail = avail % 2 ^ 32 := by
  unfold cycleNbytes
  have := length_decimalInt_bmod_le (avail - 16 - 2 - 4 : ℤ)
  dsimp only
  rw [Nat.div_eq_of_lt (by omega), Nat.sub_zero]

theorem writeCycle_outside {m : Mem} {o avail x : ℕ} (h : x < o ∨ o + 16 ≤ x) :
    writeCycle m o avail x = m x := by
  simp only [writeCycle, markStored, setFlags]
  repeat rw [write_outside (by simp only [List.length_singleton, length_le32]; omega)]

theorem writeCycle_flags {m : Mem} {o : ℕ} (avail : ℕ) (zero : m (o + 9) = 0) :
    flagsOf (writeCycle m o avail) o = itemCycle ||| itemStored := by
  simp only [writeCycle, markStored, setFlags, flagsOf, write_byte, if_pos, zero]
  rw [write_outside (by simp only [length_le32]; omega), write_byte, if_neg (by omega), write_byte,
    if_pos rfl]
  decide

theorem writeCycle_nbytes (m : Mem) (o : ℕ) {avail : ℕ} (small : avail < 2 ^ 32) :
    nbytesOf (writeCycle m o avail) o = avail := by
  have frame (m' : Mem) (v : UInt8) : u32 (write m' (o + 9) [v]) (o + 4) = u32 m' (o + 4) :=
    u32_congr (agree_write (by omega))
  simp only [writeCycle, markStored, setFlags, nbytesOf]
  rw [frame, u32_write, cycleNbytes_eq, Nat.mod_mod, Nat.mod_eq_of_lt small]

end LogMemcached
