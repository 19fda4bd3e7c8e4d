import Mathlib.Algebra.Order.Ring.Nat
import Mathlib.Logic.Function.Basic

namespace UCore
set_option autoImplicit true

/-- The SLOB heap: words of memory by address, and the three static variables. A `slob_t` at `b` keeps
`units` in the word `b` and `next` in the word `b + 8`; a `bigblock_t` at `b` keeps `order`, `pages` and
`next` in the words `b`, `b + 8` and `b + 16`. The list `pages` records the pages given to the arena.
The counts of units stay far below the bound of an `int` on a machine with 128 MB. -/
structure SlobHeap where
  mem : Nat → Nat
  arena : Nat
  slobfree : Nat
  bigblocks : Nat
  pages : List Nat

/-- `PAGE_SIZE`. -/
def pageSize : Nat := 4096

/-- `SLOB_UNIT`, the size of a `slob_t`. -/
def slobUnit : Nat := 16

/-- `SLOB_UNITS`. -/
def slobUnits (size : Nat) : Nat := (size + slobUnit - 1) / slobUnit

/-- `sizeof(bigblock_t)`. -/
def bigblockSize : Nat := 24

/-- `ALIGN(addr, size)`. -/
def alignUp (addr size : Nat) : Nat := (addr + size - 1) &&& (2 ^ 64 - 1 - (size - 1))

namespace SlobHeap

def store (h : SlobHeap) (a v : Nat) : SlobHeap := { h with mem := Function.update h.mem a v }

def units (h : SlobHeap) (b : Nat) : Nat := h.mem b
def next (h : SlobHeap) (b : Nat) : Nat := h.mem (b + 8)
def setUnits (h : SlobHeap) (b n : Nat) : SlobHeap := h.store b n
def setNext (h : SlobHeap) (b c : Nat) : SlobHeap := h.store (b + 8) c
def setSlobfree (h : SlobHeap) (b : Nat) : SlobHeap := { h with slobfree := b }

def bbOrder (h : SlobHeap) (bb : Nat) : Nat := h.mem bb
def bbPages (h : SlobHeap) (bb : Nat) : Nat := h.mem (bb + 8)
def bbNext (h : SlobHeap) (bb : Nat) : Nat := h.mem (bb + 16)

/-- More steps than the free list has blocks, should every unit be a block of its own. -/
def fuel (h : SlobHeap) : Nat := 256 * h.pages.length + 2

end SlobHeap

/-- The reinsertion point search of `slob_free`. -/
def slobFreeLoop (h : SlobHeap) (b cur : Nat) : Nat → Option Nat
  | 0 => none
  | fuel + 1 =>
    if cur < b ∧ b < h.next cur then some cur
    else if h.next cur ≤ cur ∧ (cur < b ∨ b < h.next cur) then some cur
    else slobFreeLoop h b (h.next cur) fuel

/-- The merges of `slob_free` around the reinsertion point `cur`. -/
def slobLink (h : SlobHeap) (b cur : Nat) : SlobHeap :=
  let h :=
    if b + slobUnit * h.units b = h.next cur then
      let nx := h.next cur
      let h := h.setUnits b (h.units b + h.units nx)
      h.setNext b (h.next nx)
    else h.setNext b (h.next cur)
  let h :=
    if cur + slobUnit * h.units cur = b then
      let h := h.setUnits cur (h.units cur + h.units b)
      h.setNext cur (h.next b)
    else h.setNext cur b
  h.setSlobfree cur

def slobFree (h : SlobHeap) (block size : Nat) : Option SlobHeap :=
  if block = 0 then some h
  else do
    let h := if size ≠ 0 then h.setUnits block (slobUnits size) else h
    let cur ← slobFreeLoop h block h.slobfree h.fuel
    some (slobLink h block cur)

/-- The branch of `slob_alloc` that found room in the block `cur` behind `prev`. -/
def slobTake (h : SlobHeap) (units delta prev cur : Nat) : Nat × SlobHeap :=
  let (h, prev, cur) :=
    if delta ≠ 0 then
      let aligned := cur + slobUnit * delta
      let h := h.setUnits aligned (h.units cur - delta)
      let h := h.setNext aligned (h.next cur)
      let h := h.setNext cur aligned
      let h := h.setUnits cur delta
      (h, cur, aligned)
    else (h, prev, cur)
  let h :=
    if h.units cur = units then h.setNext prev (h.next cur)
    else
      let nx := cur + slobUnit * units
      let h := h.setNext prev nx
      let h := h.setUnits nx (h.units cur - units)
      let h := h.setNext nx (h.next cur)
      h.setUnits cur units
  (cur, h.setSlobfree prev)

/-- The search loop of `slob_alloc`. Each request for an arena page takes its reply, a page or `NULL`,
from the list `rs`. -/
def slobAllocLoop (size units align : Nat) (h : SlobHeap) (prev cur : Nat)
    (rs : List (Option Nat)) : Nat → Option (Option Nat × SlobHeap × List (Option Nat))
  | 0 => none
  | fuel + 1 =>
    let delta := if align ≠ 0 then (alignUp cur align - cur) / slobUnit else 0
    if units + delta ≤ h.units cur then
      let (b, h) := slobTake h units delta prev cur
      some (some b, h, rs)
    else if cur = h.slobfree then
      if size = pageSize then some (none, h, rs)
      else
        match rs with
        | [] => none
        | none :: rs => some (none, h, rs)
        | some page :: rs => do
          let h ← slobFree { h with pages := page :: h.pages } page pageSize
          slobAllocLoop size units align h h.slobfree (h.next h.slobfree) rs fuel
    else slobAllocLoop size units align h cur (h.next cur) rs fuel

def slobAlloc (h : SlobHeap) (size align : Nat) (rs : List (Option Nat)) :
    Option (Option Nat × SlobHeap × List (Option Nat)) :=
  if size + slobUnit < pageSize then
    slobAllocLoop size (slobUnits size) align h h.slobfree (h.next h.slobfree) rs
      (2 * h.fuel + 2 * 256)
  else none

/-- Conversion of a `size_t` to `int`. -/
def toInt (n : Nat) : Int := if n % 2 ^ 32 < 2 ^ 31 then n % 2 ^ 32 else n % 2 ^ 32 - 2 ^ 32

/-- The loop of `find_order`; an `int` allows at most 32 rounds. -/
def findOrderLoop (size : Int) (order : Nat) : Nat → Nat
  | 0 => order
  | fuel + 1 => if 4096 < size then findOrderLoop (size / 2) (order + 1) fuel else order

def findOrder (size : Int) : Nat := findOrderLoop size 0 32

/-- `__kmalloc`. The replies `rs` answer the arena's page requests; `big` answers the request for
`1 << order` pages. -/
def kmalloc (h : SlobHeap) (size : Nat) (rs : List (Option Nat)) (big : Option Nat) :
    Option (Option Nat × SlobHeap × List (Option Nat)) :=
  if size < pageSize - slobUnit then do
    let (m, h, rs) ← slobAlloc h (size + slobUnit) 0 rs
    some (m.map (· + slobUnit), h, rs)
  else do
    let (bb, h, rs) ← slobAlloc h bigblockSize 0 rs
    match bb with
    | none => some (none, h, rs)
    | some bb =>
      let h := h.store bb (findOrder (toInt size))
      match big with
      | some pages =>
        let h := h.store (bb + 8) pages
        let h := h.store (bb + 16) h.bigblocks
        some (some pages, { h with bigblocks := bb }, rs)
      | none => do
        let h := h.store (bb + 8) 0
        let h ← slobFree h bb bigblockSize
        some (none, h, rs)

/-- The search of `kfree` along `bigblocks`: unlink the record of `block` from the pointer `last`,
which is the static variable when it is `none`. -/
def bigblockUnlink (h : SlobHeap) (block : Nat) (last : Option Nat) (bb : Nat) :
    Nat → Option (Option Nat × SlobHeap)
  | 0 => none
  | fuel + 1 =>
    if bb = 0 then some (none, h)
    else if h.bbPages bb = block then
      match last with
      | none => some (some bb, { h with bigblocks := h.bbNext bb })
      | some l => some (some bb, h.store (l + 16) (h.bbNext bb))
    else bigblockUnlink h block (some bb) (h.bbNext bb) fuel

/-- `kfree`, with the pages handed back to `free_pages` as start and count. -/
def kfree (h : SlobHeap) (block : Nat) : Option (SlobHeap × Option (Nat × Nat)) :=
  if block = 0 then some (h, none)
  else if block % pageSize = 0 then do
    let (found, h) ← bigblockUnlink h block none h.bigblocks h.fuel
    match found with
    | some bb => do
      let pages := (block, 2 ^ h.bbOrder bb)
      let h ← slobFree h bb bigblockSize
      some (h, some pages)
    | none => do
      let h ← slobFree h (block - slobUnit) 0
      some (h, none)
  else do
    let h ← slobFree h (block - slobUnit) 0
    some (h, none)

end UCore
