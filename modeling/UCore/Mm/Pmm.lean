import UCore.Lib.Stride
import UCore.Mm.Phys

namespace UCore
set_option autoImplicit true

namespace Mem
open Function (update)
variable {A : PhysSys}

/-- `get_pte` without `create`: the frame and index of the entry, if its tables are there. -/
def pteSlot (m : Mem A) (pgdir la : Nat) : Option (Option (Nat × Nat)) :=
  if pteValid (m.frame pgdir (pdx1 la)) then do
    let pd0 ← kva (ptePpn (m.frame pgdir (pdx1 la)))
    if pteValid (m.frame pd0 (pdx0 la)) then do
      let pt ← kva (ptePpn (m.frame pd0 (pdx0 la)))
      some (some (pt, ptx la))
    else some none
  else some none

/-- `swap_offset`, which panics for a bad entry. -/
def swapOffset (m : Mem A) (entry : BitVec 64) : Option Nat :=
  let offset := (entry >>> 8).toNat
  if 0 < offset ∧ offset < m.maxSwapOffset then some offset else none

/-- The entry that `swap_out` leaves for a page at the address `v`. -/
def swapEntry (v : Nat) : BitVec 64 := BitVec.ofNat 64 (v / pgSize + 1) <<< 8

/-- `swapfs_read` and `swapfs_write` move whole pages between a frame and the disk. -/
def swapfsRead (m : Mem A) (entry : BitVec 64) (page : Nat) : Option (Mem A) := do
  let offset ← m.swapOffset entry
  some (m.setFrame page (m.disk offset))

def swapfsWrite (m : Mem A) (entry : BitVec 64) (page : Nat) : Option (Mem A) := do
  let offset ← m.swapOffset entry
  some { m with disk := update m.disk offset (m.frame page) }

def swapInitMm (m : Mem A) (mm : Nat) : Mem A :=
  { m with praList := [], mms := update m.mms mm { m.mms mm with smPriv := true } }

/-- `_fifo_map_swappable`: the page goes to the back of the queue. -/
def swapMapSwappable (m : Mem A) (mm page : Nat) : Option (Mem A) :=
  if (m.mms mm).smPriv then some { m with praList := m.praList ++ [page] } else none

/-- `_fifo_swap_out_victim`: the page at the front of the queue. With an empty queue it makes a page out of
the list header. -/
def swapOutVictim (m : Mem A) (mm : Nat) : Option (Nat × Mem A) :=
  if (m.mms mm).smPriv then
    match m.praList with
    | [] => none
    | page :: rest => some (page, { m with praList := rest })
  else none

/-- `swap_out` of one page; there is no address space when `mm` is NULL. -/
def swapOut (m : Mem A) (mm : Option Nat) : Option (Mem A) := do
  let mm ← mm
  let (page, m) ← m.swapOutVictim mm
  let v := m.praVaddr page
  let pgdir ← (m.mms mm).pgdir
  let (pt, i) ← (← m.pteSlot pgdir v)
  if pteValid (m.frame pt i) then do
    let m ← m.swapfsWrite (swapEntry v) page
    some ((m.setEntry pt i (swapEntry v)).freePage page)
  else none

/-- `alloc_pages`. Each round that comes again has taken a page off the queue. -/
def allocPagesLoop (m : Mem A) (n : Nat) : Nat → Option (Option Nat × Mem A)
  | 0 => none
  | fuel + 1 =>
    match A.allocPages m.phys n with
    | (some p, s) => some (some p, m.setPhys s)
    | (none, s) =>
      if 1 < n ∨ m.swapInitOk = false then some (none, (m.setPhys s).fail)
      else do
        let m ← (m.setPhys s).swapOut m.checkMm
        m.allocPagesLoop n fuel

def allocPages (m : Mem A) (n : Nat) : Option (Option Nat × Mem A) :=
  m.allocPagesLoop n (m.praList.length + 1)

def allocPage (m : Mem A) : Option (Option Nat × Mem A) := m.allocPages 1

/-- One level of `get_pte`: the table that the entry `i` of the frame `f` points to. -/
def nextTable (m : Mem A) (f i : Nat) (create : Bool) : Option (Option Nat × Mem A) :=
  if pteValid (m.frame f i) then (kva (ptePpn (m.frame f i))).map fun t => (some t, m)
  else if create then do
    match ← m.allocPage with
    | (none, m) => some (none, m)
    | (some page, m) => do
      let m := m.setRef page 1
      let t ← kva page
      let m := m.setFrame t fun _ => 0
      let m := m.setEntry f i (pteCreate page (pteU ||| pteV))
      (kva (ptePpn (m.frame f i))).map fun t => (some t, m)
  else some (none, m)

def getPte (m : Mem A) (pgdir la : Nat) (create : Bool) : Option (Option (Nat × Nat) × Mem A) := do
  match ← m.nextTable pgdir (pdx1 la) create with
  | (none, m) => some (none, m)
  | (some pd0, m) =>
    match ← m.nextTable pd0 (pdx0 la) create with
    | (none, m) => some (none, m)
    | (some pt, m) => some (some (pt, ptx la), m)

/-- `page_remove_pte` on the entry `i` of the frame `pt`. -/
def pageRemovePte (m : Mem A) (pt i : Nat) : Option (Mem A) :=
  if pteValid (m.frame pt i) then do
    let page ← kva (ptePpn (m.frame pt i))
    let m := m.setRef page (m.ref page - 1)
    let m := if m.ref page = 0 then m.freePage page else m
    some (m.setEntry pt i 0)
  else some m

def pageRemove (m : Mem A) (pgdir la : Nat) : Option (Mem A) := do
  match ← m.getPte pgdir la false with
  | (none, m) => some m
  | (some (pt, i), m) => m.pageRemovePte pt i

/-- `page_insert`; the result says whether it returned 0. -/
def pageInsert (m : Mem A) (pgdir page la : Nat) (perm : BitVec 32) : Option (Bool × Mem A) := do
  match ← m.getPte pgdir la true with
  | (none, m) => some (false, m)
  | (some (pt, i), m) => do
    let m := m.setRef page (m.ref page + 1)
    let m ← (if pteValid (m.frame pt i) then do
        let p ← kva (ptePpn (m.frame pt i))
        if p = page then some (m.setRef page (m.ref page - 1)) else m.pageRemovePte pt i
      else some m)
    some (true, m.setEntry pt i (pteCreate page (pteV ||| perm)))

def pgdirAllocPage (m : Mem A) (pgdir la : Nat) (perm : BitVec 32) : Option (Option Nat × Mem A) := do
  match ← m.allocPage with
  | (none, m) => some (none, m)
  | (some page, m) =>
    match ← m.pageInsert pgdir page la perm with
    | (false, m) => some (none, m.freePage page)
    | (true, m) =>
      if m.swapInitOk then
        match m.checkMm with
        | some mm => do
          let m ← m.swapMapSwappable mm page
          let m := { m with praVaddr := update m.praVaddr page la }
          if m.ref page = 1 then some (some page, m) else none
        | none => some (some page, m)
      else some (some page, m)

/-- The address of the next page, and of the next page table. -/
@[irreducible] def nextPage (start : Nat) : Nat := start + pgSize
@[irreducible] def nextTableStart (start : Nat) : Nat := roundDown (start + ptSize) ptSize

/-- The loop that `unmap_range` and `copy_range` have in common, from `start` on: `body` gets the entry of
each page whose tables are there, and says whether to go on. The result says whether the end was reached. -/
def rangeLoop (body : Mem A → Nat → Nat → Nat → Option (Bool × Mem A)) (pgdir stop : Nat) (m : Mem A)
    (start : Nat) : Option (Bool × Mem A) :=
  strideLoop (fun m start => m.getPte pgdir start false) (fun m start slot => body m start slot.1 slot.2)
    nextPage nextTableStart stop m start ((stop - start) / pgSize + 1)

/-- The assertions of the functions on a range of addresses, and then the function. -/
def onRange (start stop : Nat) (r : Option α) : Option α :=
  if (start % pgSize = 0 ∧ stop % pgSize = 0) ∧ UserAccess start stop then r else none

def unmapPage (m : Mem A) (_start pt i : Nat) : Option (Bool × Mem A) :=
  (if m.frame pt i ≠ 0 then m.pageRemovePte pt i else some m).map fun m => (true, m)

def unmapRange (m : Mem A) (pgdir start stop : Nat) : Option (Mem A) :=
  onRange start stop
    ((rangeLoop unmapPage pgdir stop m start).map Prod.snd)

/-- The page of `copy_range` at `start`; the result says whether to go on. -/
def copyPage (toDir : Nat) (m : Mem A) (start pt i : Nat) : Option (Bool × Mem A) :=
  if pteValid (m.frame pt i) then do
    match ← m.getPte toDir start true with
    | (none, m) => some (false, m)
    | (some _, m) => do
      let perm := ptePerm (m.frame pt i)
      if pteValid (m.frame pt i) then do
        let page ← kva (ptePpn (m.frame pt i))
        match ← m.allocPage with
        | (none, _) => none
        | (some newPage, m) => do
          let src ← kva page
          let dst ← kva newPage
          let m := m.setFrame dst (m.frame src)
          match ← m.pageInsert toDir newPage start perm with
          | (true, m) => some (true, m)
          | (false, _) => none
      else none
  else some (true, m)

/-- `copy_range`; the result says whether it returned 0. -/
def copyRange (m : Mem A) (toDir fromDir start stop : Nat) : Option (Bool × Mem A) :=
  onRange start stop (rangeLoop (copyPage toDir) fromDir stop m start)

/-- The loop of `exit_range` over the slots of one directory page: whether the page is to be freed. -/
def exitSlots (m : Mem A) (pd0 d1start stop d0start : Nat) (freePd0 : Bool) :
    Nat → Option (Bool × Mem A)
  | 0 => none
  | fuel + 1 => do
    let pde0 := m.frame pd0 (pdx0 d0start)
    let (freePd0, m) ← (if pteValid pde0 then do
        let pt ← kva (ptePpn pde0)
        if ∀ i < nPteEntry, pteValid (m.frame pt i) = false then
          some (freePd0, (m.freePage pt).setEntry pd0 (pdx0 d0start) 0)
        else some (freePd0, m)
      else some (false, m))
    let d0start := d0start + ptSize
    if d0start ≠ 0 ∧ d0start < d1start + pdSize ∧ d0start < stop then
      m.exitSlots pd0 d1start stop d0start freePd0 fuel
    else some (freePd0, m)

/-- The outer loop of `exit_range`. -/
def exitLoop (m : Mem A) (pgdir stop d1start d0start : Nat) : Nat → Option (Mem A)
  | 0 => none
  | fuel + 1 => do
    let pde1 := m.frame pgdir (pdx1 d1start)
    let m ← (if pteValid pde1 then do
        let pd0 ← kva (ptePpn pde1)
        let (freePd0, m) ← m.exitSlots pd0 d1start stop d0start true nPteEntry
        if freePd0 then some ((m.freePage pd0).setEntry pgdir (pdx1 d1start) 0) else some m
      else some m)
    let d1start := d1start + pdSize
    if d1start ≠ 0 ∧ d1start < stop then m.exitLoop pgdir stop d1start d1start fuel else some m

def exitRange (m : Mem A) (pgdir start stop : Nat) : Option (Mem A) :=
  onRange start stop
    (m.exitLoop pgdir stop (roundDown start pdSize) (roundDown start ptSize) (stop / pdSize + 1))

end Mem

end UCore
