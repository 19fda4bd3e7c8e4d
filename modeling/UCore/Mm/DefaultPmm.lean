import UCore.Libs.List

namespace UCore
set_option autoImplicit true

/-- The list entries threaded through `free_list`: the header, and the `page_link` of `pages[p]`. -/
inductive PageEntry where
  | freeList
  | pageLink (p : Nat)
  deriving DecidableEq, Repr

/-- The bits `PG_reserved` and `PG_property` of `struct Page.flags`. -/
structure PageFlags where
  reserved : Bool
  property : Bool
  deriving DecidableEq, Repr

def PageFlags.zero : PageFlags := ⟨false, false⟩

/-- The fields of `struct Page` that the physical memory manager uses. -/
structure PageStruct where
  ref : Int
  flags : PageFlags
  property : Nat
  deriving DecidableEq, Repr

/-- `free_area` together with the array `pages` of `npage` descriptors. -/
structure FreeArea where
  npage : Nat
  pages : Nat → PageStruct
  link : Links PageEntry
  nrFree : Nat

/-- Conversion to `unsigned int`. -/
def uint (n : Nat) : Nat := n % 2 ^ 32

theorem uint_of_lt (h : n < 2 ^ 32) : uint n = n := Nat.mod_eq_of_lt h

namespace FreeArea

def setPage (a : FreeArea) (p : Nat) (q : PageStruct) : FreeArea :=
  { a with pages := Function.update a.pages p q }

def setLink (a : FreeArea) (l : Links PageEntry) : FreeArea := { a with link := l }

def setNrFree (a : FreeArea) (n : Nat) : FreeArea := { a with nrFree := uint n }

def setProperty (a : FreeArea) (p n : Nat) : FreeArea :=
  a.setPage p { a.pages p with property := uint n }

def setPageProperty (a : FreeArea) (p : Nat) : FreeArea :=
  a.setPage p { a.pages p with flags := { (a.pages p).flags with property := true } }

def clearPageProperty (a : FreeArea) (p : Nat) : FreeArea :=
  a.setPage p { a.pages p with flags := { (a.pages p).flags with property := false } }

def property (a : FreeArea) (p : Nat) : Nat := (a.pages p).property

def pageProperty (a : FreeArea) (p : Nat) : Bool := (a.pages p).flags.property

def pageReserved (a : FreeArea) (p : Nat) : Bool := (a.pages p).flags.reserved

end FreeArea

def defaultInit (a : FreeArea) : FreeArea :=
  { a with link := listInit a.link .freeList, nrFree := 0 }

/-- The first loop of `default_init_memmap`, over the `n` pages from `p` on. -/
def initPages (a : FreeArea) (p : Nat) : Nat → Option FreeArea
  | 0 => some a
  | n + 1 =>
    if a.pageReserved p then initPages (a.setPage p ⟨0, .zero, 0⟩) (p + 1) n
    else none

/-- The insertion loop that `default_init_memmap` and `default_free_pages` share, entered with the
cursor at `le`. It does not leave after appending at the tail. -/
def insertLoop (base : Nat) (l : Links PageEntry) (le : PageEntry) : Nat → Option (Links PageEntry)
  | 0 => none
  | fuel + 1 =>
    match listNext l le with
    | .freeList => some l
    | .pageLink page =>
      if base < page then some (listAddBefore l (.pageLink page) (.pageLink base))
      else if listNext l (.pageLink page) = .freeList then
        insertLoop base (listAdd l (.pageLink page) (.pageLink base)) (.pageLink page) fuel
      else insertLoop base l (.pageLink page) fuel

/-- Linking the block at `base` into the free list. -/
def insertBlock (a : FreeArea) (base : Nat) : Option FreeArea :=
  if listEmpty a.link .freeList then
    some (a.setLink (listAdd a.link .freeList (.pageLink base)))
  else do
    let l ← insertLoop base a.link .freeList (a.npage + 2)
    some (a.setLink l)

def defaultInitMemmap (a : FreeArea) (base n : Nat) : Option FreeArea :=
  if n = 0 then none
  else do
    let a ← initPages a base n
    let a := a.setProperty base n
    let a := a.setPageProperty base
    let a := a.setNrFree (a.nrFree + n)
    insertBlock a base

/-- The search of `default_alloc_pages`: the first block with at least `n` pages. -/
def firstFit (a : FreeArea) (n : Nat) (le : PageEntry) : Nat → Option (Option Nat)
  | 0 => none
  | fuel + 1 =>
    match listNext a.link le with
    | .freeList => some none
    | .pageLink p =>
      if n ≤ a.property p then some (some p)
      else firstFit a n (.pageLink p) fuel

/-- The second half of `default_alloc_pages`, once the block at `page` is chosen. -/
def takeBlock (a : FreeArea) (page n : Nat) : FreeArea :=
  let prev := listPrev a.link (.pageLink page)
  let a := a.setLink (listDel a.link (.pageLink page))
  let a :=
    if n < a.property page then
      let p := page + n
      let a := a.setProperty p (a.property page - n)
      let a := a.setPageProperty p
      a.setLink (listAdd a.link prev (.pageLink p))
    else a
  let a := a.setNrFree (a.nrFree - n)
  a.clearPageProperty page

def defaultAllocPages (a : FreeArea) (n : Nat) : Option (Option Nat × FreeArea) :=
  if n = 0 then none
  else if a.nrFree < n then some (none, a)
  else do
    match ← firstFit a n .freeList (a.npage + 1) with
    | none => some (none, a)
    | some page => some (some page, takeBlock a page n)

/-- The first loop of `default_free_pages`, over the `n` pages from `p` on. -/
def resetPages (a : FreeArea) (p : Nat) : Nat → Option FreeArea
  | 0 => some a
  | n + 1 =>
    if a.pageReserved p || a.pageProperty p then none
    else resetPages (a.setPage p { a.pages p with ref := 0, flags := .zero }) (p + 1) n

/-- Merging the block at `base` into its predecessor; returns the head of the resulting block. -/
def mergePrev (a : FreeArea) (base : Nat) : Nat × FreeArea :=
  match listPrev a.link (.pageLink base) with
  | .freeList => (base, a)
  | .pageLink p =>
    if p + a.property p = base then
      let a := a.setProperty p (a.property p + a.property base)
      let a := a.clearPageProperty base
      (p, a.setLink (listDel a.link (.pageLink base)))
    else (base, a)

/-- Merging the successor into the block at `base`. -/
def mergeNext (a : FreeArea) (base : Nat) : FreeArea :=
  match listNext a.link (.pageLink base) with
  | .freeList => a
  | .pageLink p =>
    if base + a.property base = p then
      let a := a.setProperty base (a.property base + a.property p)
      let a := a.clearPageProperty p
      a.setLink (listDel a.link (.pageLink p))
    else a

def defaultFreePages (a : FreeArea) (base n : Nat) : Option FreeArea :=
  if n = 0 then none
  else do
    let a ← resetPages a base n
    let a := a.setProperty base n
    let a := a.setPageProperty base
    let a := a.setNrFree (a.nrFree + n)
    let a ← insertBlock a base
    let (base, a) := mergePrev a base
    some (mergeNext a base)

def defaultNrFreePages (a : FreeArea) : Nat := a.nrFree

end UCore
