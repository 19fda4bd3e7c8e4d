import UCore.Mm.KmallocBig

namespace UCore
set_option autoImplicit true

/-- A block of `size` bytes at `ptr`, behind its header. -/
structure SmallChunk where
  ptr : Nat
  size : Nat
  deriving DecidableEq

def SmallChunk.seg (c : SmallChunk) : Seg := ⟨c.ptr - slobUnit, slobUnits (c.size + slobUnit)⟩

/-- The heap together with the blocks that are out at the callers of `kmalloc`. -/
structure SlobState where
  heap : SlobHeap
  smalls : List SmallChunk
  bigs : List BigChunk

inductive SlobCall where
  | kmalloc (size : Nat) (page big : Option Nat)
  | kfree (ptr : Nat)
  | write (addr val : Nat)
  deriving DecidableEq, Repr

namespace SlobState

/-- What `alloc_pages` may answer: a free page for the arena, and a free run for a big block. -/
def FreshPage (s : SlobState) (p : Nat) : Prop :=
  0 < p ∧ p % pageSize = 0 ∧ Seg.Apart ⟨s.heap.arena, 1⟩ (pageSeg p) ∧
    (∀ q ∈ s.heap.pages, Seg.Disjoint (pageSeg p) (pageSeg q)) ∧
    ∀ b ∈ s.bigs, Seg.Disjoint (pageSeg p) b.seg

def FreshRun (s : SlobState) (b : BigChunk) : Prop :=
  0 < b.ptr ∧ b.ptr % pageSize = 0 ∧ Seg.Disjoint b.seg ⟨s.heap.arena, 1⟩ ∧
    (∀ q ∈ s.heap.pages, Seg.Disjoint b.seg (pageSeg q)) ∧
    ∀ c ∈ s.bigs, Seg.Disjoint b.seg c.seg

/-- The requests that pass the assertion of `slob_alloc`, with disjoint answers from `alloc_pages`;
`kfree` of live pointers; and stores of the callers into their blocks. -/
def allowed (s : SlobState) : SlobCall → Prop
  | .kmalloc size page big =>
    1 ≤ size ∧ size < 2 ^ 64 ∧ (size < pageSize - 2 * slobUnit ∨ pageSize - slobUnit ≤ size) ∧
      (∀ p ∈ page.toList, s.FreshPage p) ∧
      ∀ b ∈ big.toList, s.FreshRun ⟨b, findOrder (toInt size)⟩ ∧
        ∀ p ∈ page.toList, Seg.Disjoint (BigChunk.seg ⟨b, findOrder (toInt size)⟩) (pageSeg p)
  | .kfree ptr => (∃ c ∈ s.smalls, c.ptr = ptr) ∨ ∃ c ∈ s.bigs, c.ptr = ptr
  | .write addr _ => (∃ c ∈ s.smalls, c.ptr ≤ addr ∧ addr + 8 ≤ c.ptr + c.size) ∨
      ∃ c ∈ s.bigs, c.ptr ≤ addr ∧ addr + 8 ≤ c.seg.stop

def call (s : SlobState) : SlobCall → Option SlobState
  | .kmalloc size page big =>
    match kmalloc s.heap size [page] big with
    | none => none
    | some (none, h, _) => some { s with heap := h }
    | some (some p, h, _) =>
      if size < pageSize - slobUnit then some { s with heap := h, smalls := ⟨p, size⟩ :: s.smalls }
      else some { s with heap := h, bigs := ⟨p, findOrder (toInt size)⟩ :: s.bigs }
  | .kfree ptr =>
    match kfree s.heap ptr with
    | none => none
    | some (h, _) => some ⟨h, s.smalls.eraseP (·.ptr = ptr), s.bigs.eraseP (·.ptr = ptr)⟩
  | .write addr val => some { s with heap := s.heap.store addr val }

instance (s : SlobState) (c : SlobCall) : Decidable (s.allowed c) := by
  cases c <;> simp only [allowed, FreshPage, FreshRun] <;> infer_instance

end SlobState

/-- One turn around the free list, starting at `slobfree`. -/
def slobWalk (h : SlobHeap) (cur : Nat) : Nat → Option (List Seg)
  | 0 => none
  | fuel + 1 =>
    if h.next cur = h.slobfree then some [⟨cur, h.units cur⟩]
    else (slobWalk h (h.next cur) fuel).map (⟨cur, h.units cur⟩ :: ·)

/-- The number of units that `kmalloc(size)` asks `slob_alloc` for. -/
def kmallocUnits (size : Nat) : Nat :=
  if size < pageSize - slobUnit then slobUnits (size + slobUnit) else slobUnits bigblockSize

/-- The invariant of the calls: `L` is the free list and `recs` the records of the big blocks. -/
structure SlobInv (s : SlobState) (L : List Seg) (recs : List BigRec) : Prop where
  rep : SlobRep s.heap L (s.smalls.map SmallChunk.seg ++ recs.map BigRec.seg)
  sizes : ∀ c ∈ s.smalls, 1 ≤ c.size
  header : ∀ c ∈ s.smalls, s.heap.units c.seg.addr = c.seg.units
  chain : BigChain s.heap s.heap.bigblocks recs
  live : recs.map BigRec.chunk = s.bigs
  aligned : ∀ b ∈ s.bigs, 0 < b.ptr ∧ b.ptr % pageSize = 0
  pages : ∀ b ∈ s.bigs, Seg.Disjoint b.seg ⟨s.heap.arena, 1⟩ ∧
    ∀ p ∈ s.heap.pages, Seg.Disjoint b.seg (pageSeg p)
  runs : (s.bigs.map BigChunk.seg).Pairwise Seg.Disjoint

section Inv
variable {s : SlobState} {L : List Seg} {recs : List BigRec} {h' : SlobHeap}

theorem SlobInv.header_same (hi : SlobInv s L recs) (hc : c ∈ s.smalls)
    (hs : SameOn c.seg s.heap h') : h'.units c.seg.addr = c.seg.units := by
  have hmem := List.mem_append_left (recs.map BigRec.seg) (List.mem_map_of_mem (f := SmallChunk.seg) hc)
  have hpos := hi.rep.tiling.pos _ (List.mem_append_right L hmem)
  rw [← hi.header c hc]
  exact hs _ le_rfl (by simp only [Seg.stop]; omega)

theorem SlobInv.chain_frame (hi : SlobInv s L recs)
    (hf : SlobFrame s.heap h' (X ++ recs.map BigRec.seg)) : BigChain h' h'.bigblocks recs := by
  rw [hf.bigblocks]
  refine hi.chain.congr fun r hr => hf.same _ ?_
  exact List.mem_append_right _ (List.mem_map_of_mem hr)

theorem mem_smalls {smalls : List SmallChunk} (hc : c ∈ smalls) (Y : List Seg) :
    c.seg ∈ smalls.map SmallChunk.seg ++ Y := List.mem_append_left _ (List.mem_map_of_mem hc)

theorem SlobInv.rec_pos (hi : SlobInv s L recs) (hr : r ∈ recs) : r.addr ≠ 0 :=
  (hi.rep.addr_pos (s := r.seg) (List.mem_append_right _ (List.mem_map_of_mem hr))).ne'

theorem SlobInv.length_recs (hi : SlobInv s L recs) : recs.length < s.heap.fuel := by
  have := length_le_totalUnits hi.rep.tiling.pos
  have := hi.rep.tiling.total
  simp only [List.length_append, List.length_map, SlobHeap.fuel] at *
  omega

/-- The runs of pages of the big blocks lie outside of the heap. -/
theorem SlobInv.outside (hi : SlobInv s L recs) (hb : b ∈ s.bigs)
    (hx : x ∈ L ++ (s.smalls.map SmallChunk.seg ++ recs.map BigRec.seg)) : b.seg.Disjoint x := by
  by_cases hA : x = ⟨s.heap.arena, 1⟩
  · exact hA ▸ (hi.pages b hb).1
  · refine (hi.rep.tiling.covered x hx hA).disjoint (hi.pages b hb).2 (hi.rep.tiling.pos x hx) ?_
    exact Nat.mul_pos (by decide) (Nat.two_pow_pos _)

theorem slobWalk_path {h : SlobHeap} (hl : (cur :: xs).map h.next = xs ++ [h.slobfree])
    (hn : h.slobfree ∉ xs) (hf : xs.length < fuel) :
    slobWalk h cur fuel = some ((cur :: xs).map fun a => ⟨a, h.units a⟩) := by
  induction xs generalizing cur fuel with
  | nil =>
    obtain ⟨fuel, rfl⟩ := Nat.exists_eq_add_one.2 hf
    have hc : h.next cur = h.slobfree := by simpa using hl
    rw [slobWalk, if_pos hc]
    rfl
  | cons x xs ih =>
    obtain ⟨fuel, rfl⟩ := Nat.exists_eq_add_one.2 (Nat.zero_lt_of_lt hf)
    obtain ⟨hx, hxs⟩ : h.next cur = x ∧ (x :: xs).map h.next = xs ++ [h.slobfree] := by simpa using hl
    simp only [List.mem_cons, not_or] at hn
    rw [slobWalk, if_neg (hx ▸ fun he => hn.1 he.symm), hx, ih hxs hn.2 (Nat.lt_of_succ_lt_succ hf)]
    rfl

theorem SlobRep.walk {h : SlobHeap} (hr : SlobRep h L used) :
    ∃ L', slobWalk h h.slobfree h.fuel = some L' ∧ SlobRep h L' used := by
  obtain ⟨s, hs, hsf⟩ := List.mem_map.1 hr.start
  obtain ⟨l, r, rfl⟩ := List.append_of_mem hs
  have hrot : l ++ s :: r ~r s :: (r ++ l) := rotated_append l (s :: r)
  have hring := hr.toSlobRing.isRotated hrot
  have hlen := hr.length_le
  rw [hrot.perm.length_eq] at hlen
  refine ⟨s :: (r ++ l), ?_, ⟨hring, ?_, ?_, hrot.mem_iff.1 hr.arena, ?_, hr.pages⟩⟩
  · have hlink := cycle_cons_iff.1 hring.cycle
    have hnd := hring.nodup
    simp only [List.map_cons, hsf, List.nodup_cons] at hlink hnd
    rw [slobWalk_path (by simpa using hlink) hnd.1 (by
      simp only [List.length_map, List.length_cons, SlobHeap.fuel] at *
      omega)]
    refine congrArg some ?_
    rw [← hsf, ← List.map_cons, List.map_map]
    refine (List.map_congr_left fun x hx => ?_).trans (List.map_id _)
    simp only [Function.comp, id, hring.header x hx]
  · exact (hrot.perm.pairwise_iff fun h => h.symm).1 hr.apart
  · exact (hrot.map Seg.addr).mem_iff.1 hr.start
  · exact hr.tiling.perm (hrot.perm.append_right used)

theorem FreshPage.arenaPage (h : s.FreshPage p) : ArenaPage s.heap p := ⟨h.1, h.2.2.1, h.2.2.2.1⟩

/-- A small request: the block is taken from the free list, which may first take in a page. -/
theorem SlobInv.kmalloc_small (hi : SlobInv s L recs) (h1 : 1 ≤ size)
    (hsz : size < pageSize - 2 * slobUnit) (hp : ∀ p, page = some p → s.FreshPage p) :
    ∃ r h rs, kmalloc s.heap size [page] big = some (r, h, rs) ∧
      (rs = [] → ∀ b ∈ L, b.units < kmallocUnits size) ∧
      ∃ s' L' recs', s.call (.kmalloc size page big) = some s' ∧ SlobInv s' L' recs' := by
  have hlt : size < pageSize - slobUnit := hsz.trans_le (Nat.sub_le_sub_left (by decide) _)
  have hku : kmallocUnits size = slobUnits (size + slobUnit) := if_pos hlt
  have hs : slobUnit < size + slobUnit := Nat.lt_add_of_pos_left h1
  have hs' : size + slobUnit + slobUnit < pageSize := by
    simp only [pageSize, slobUnit] at *
    omega
  rcases slobAlloc_total hi.rep hs hs' fun p h => FreshPage.arenaPage (hp p h) with
    ⟨c, h', rs, ps, he, ht, hps, hreq⟩ | ⟨he, hreq⟩
  · have hk : kmalloc s.heap size [page] big = some (some (c + slobUnit), h', rs) := by
      simp [kmalloc, hlt, he]
    refine ⟨_, h', rs, hk, fun h => hku ▸ hreq h, ?_⟩
    obtain ⟨L', hr'⟩ := ht.rep
    have hseg : SmallChunk.seg ⟨c + slobUnit, size⟩ = ⟨c, slobUnits (size + slobUnit)⟩ := by
      simp [SmallChunk.seg]
    refine ⟨⟨h', ⟨c + slobUnit, size⟩ :: s.smalls, s.bigs⟩, L', recs, ?_, ?_, ?_, ?_,
      hi.chain_frame ht.frame, hi.live, hi.aligned, ?_, hi.runs⟩
    · simp [SlobState.call, hk, hlt]
    · simpa [hseg] using hr'
    · intro d hd
      rcases List.mem_cons.1 hd with rfl | hd
      · exact h1
      · exact hi.sizes d hd
    · intro d hd
      rcases List.mem_cons.1 hd with rfl | hd
      · rw [hseg]
        exact ht.header
      · exact hi.header_same hd (ht.frame.same _ (mem_smalls hd _))
    · intro b hb
      refine ⟨ht.frame.arena ▸ (hi.pages b hb).1, fun q hq => ?_⟩
      rw [ht.pages] at hq
      rcases hps with rfl | ⟨p, hpage, rfl⟩
      · exact (hi.pages b hb).2 q hq
      · rcases List.mem_cons.1 hq with rfl | hq
        · exact ((hp _ hpage).2.2.2.2 b hb).symm
        · exact (hi.pages b hb).2 q hq
  · have hk : kmalloc s.heap size [page] big = some (none, s.heap, []) := by
      simp [kmalloc, hlt, he]
    refine ⟨_, _, _, hk, fun _ => hku ▸ hreq, s, L, recs, ?_, hi⟩
    simp [SlobState.call, hk]

/-- The page that a small request takes in is the one that was offered. -/
theorem SlobInv.kmalloc_pages (hi : SlobInv s L recs) (h1 : 1 ≤ size) (hsz : size < pageSize - 2 * slobUnit)
    (hp : ∀ p, page = some p → s.FreshPage p) (hk : kmalloc s.heap size [page] big = some (r, h', rs)) :
    h'.pages = (if rs = [] then page.toList else []) ++ s.heap.pages ∧ h'.arena = s.heap.arena := by
  have hlt : size < pageSize - slobUnit := hsz.trans_le (Nat.sub_le_sub_left (by decide) _)
  have hs' : size + slobUnit + slobUnit < pageSize := by
    simp only [pageSize, slobUnit] at *
    omega
  rw [kmalloc, if_pos hlt] at hk
  obtain ⟨⟨c, t, rs'⟩, hc, hk⟩ := Option.bind_eq_some_iff.1 hk
  cases hk
  exact slobAlloc_pages hi.rep (Nat.lt_add_of_pos_left h1) hs' (fun p h => FreshPage.arenaPage (hp p h)) hc

/-- No two blocks begin at one address. -/
theorem SlobInv.ptr_nodup (hi : SlobInv s L recs) : (s.smalls.map SmallChunk.ptr).Nodup := by
  have hd := (List.pairwise_append.1 (List.pairwise_append.1 hi.rep.tiling.disjoint).2.1).1
  rw [List.pairwise_map] at hd
  refine List.pairwise_map.2 (hd.imp_of_mem fun {c d} hc hd hdis he => ?_)
  have hc := hi.sizes c hc
  have hd := hi.sizes d hd
  simp only [Seg.Disjoint, Seg.stop, SmallChunk.seg, slobUnits, slobUnit] at hdis
  omega

/-- A store into a record is invisible to the free list and to the other runs in use. -/
theorem SlobRep.store_record {h : SlobHeap} (hr : SlobRep h L (recordSeg c :: used)) (ha : c ≤ a)
    (ha' : a < c + 32) : SlobRep (h.store a v) L (recordSeg c :: used) ∧
      SlobFrame h (h.store a v) used := by
  refine ⟨hr.store_used (List.mem_cons_self ..) ha ha', ⟨fun u hu => sameOn_store ?_, rfl, rfl⟩⟩
  have := List.rel_of_pairwise_cons (List.pairwise_append.1 hr.tiling.disjoint).2.1 hu
  simp only [Seg.Disjoint, addr_recordSeg, stop_recordSeg] at this
  omega

theorem slobFree_record {h : SlobHeap} (hr : SlobRep h L (recordSeg c :: used)) :
    ∃ h' L', slobFree h c bigblockSize = some h' ∧ SlobRep h' L' used ∧ SlobFrame h h' used ∧
      h'.pages = h.pages := by
  obtain ⟨hset, hf₁⟩ := hr.store_record (v := slobUnits bigblockSize) le_rfl (Nat.lt_add_of_pos_right
    (by decide : 0 < 32))
  obtain ⟨h', L', he, hr', hf, hpg, -⟩ := slobFree_rep hset (Function.update_self ..)
  have hc : c ≠ 0 := (hr.addr_pos (s := recordSeg c) (List.mem_cons_self ..)).ne'
  refine ⟨h', L', ?_, hr', hf₁.trans hf, hpg⟩
  rw [slobFree_size hc (by decide)]
  exact he

/-- The record `c` is filled in and put at the head of `bigblocks`. -/
def linkRecord (h : SlobHeap) (c : Nat) (b : BigChunk) : SlobHeap :=
  { ((h.store c b.order).store (c + 8) b.ptr).store (c + 16) h.bigblocks with bigblocks := c }

theorem linkRecord_chain {h : SlobHeap}
    (hc : BigChain (((h.store c b.order).store (c + 8) b.ptr).store (c + 16) h.bigblocks)
      h.bigblocks recs) :
    BigChain (linkRecord h c b) (linkRecord h c b).bigblocks (⟨c, b⟩ :: recs) := by
  refine ⟨rfl, ?_, ?_⟩
  · simp [linkRecord, SlobHeap.bbPages, SlobHeap.bbOrder]
  · have hnext : (linkRecord h c b).bbNext c = h.bigblocks := Function.update_self ..
    simp only [linkRecord] at hnext ⊢
    rw [hnext]
    exact hc.congr fun _ _ _ _ _ => rfl

/-- A big request: a record from the free list, and a run of pages. -/
theorem SlobInv.kmalloc_big (hi : SlobInv s L recs) (hsz : pageSize - slobUnit ≤ size)
    (hp : ∀ p, page = some p → s.FreshPage p)
    (hb : ∀ b, big = some b → s.FreshRun ⟨b, findOrder (toInt size)⟩ ∧
      ∀ p, page = some p → Seg.Disjoint (BigChunk.seg ⟨b, findOrder (toInt size)⟩) (pageSeg p)) :
    ∃ r h rs, kmalloc s.heap size [page] big = some (r, h, rs) ∧
      (rs = [] → ∀ b ∈ L, b.units < kmallocUnits size) ∧
      ∃ s' L' recs', s.call (.kmalloc size page big) = some s' ∧ SlobInv s' L' recs' := by
  have hge : ¬ size < pageSize - slobUnit := Nat.not_lt.2 hsz
  have hku : kmallocUnits size = slobUnits bigblockSize := if_neg hge
  rcases slobAlloc_total hi.rep (by decide : slobUnit < bigblockSize) (by decide)
    fun p h => FreshPage.arenaPage (hp p h) with ⟨c, h₁, rs, ps, he, ht, hps, hreq⟩ | ⟨he, hreq⟩
  · obtain ⟨L₁, hr₁⟩ := ht.rep
    have hpages : ∀ b ∈ s.bigs, ∀ q ∈ ps, Seg.Disjoint b.seg (pageSeg q) := by
      intro b hb q hq
      rcases hps with rfl | ⟨p, hpage, rfl⟩
      · exact (hi.pages b hb).2 q hq
      · rcases List.mem_cons.1 hq with rfl | hq
        · exact ((hp _ hpage).2.2.2.2 b hb).symm
        · exact (hi.pages b hb).2 q hq
    obtain ⟨hr₂, hf₂⟩ := SlobRep.store_record (v := findOrder (toInt size)) hr₁ le_rfl (by omega)
    have hf₂ := ht.frame.trans hf₂
    cases big with
    | none =>
      obtain ⟨hr₃, hf₃⟩ := hr₂.store_record (a := c + 8) (v := 0) (by omega) (by omega)
      obtain ⟨h', L', hfree, hr', hf', hpg'⟩ := slobFree_record hr₃
      have hk : kmalloc s.heap size [page] none = some (none, h', rs) := by
        simp [kmalloc, hge, he, hfree]
      have hf := (hf₂.trans hf₃).trans hf'
      refine ⟨none, h', rs, hk, fun h => hku ▸ hreq h, { s with heap := h' }, L', recs, ?_, hr',
        hi.sizes, ?_, ?_, hi.live, hi.aligned, ?_, hi.runs⟩
      · simp [SlobState.call, hk]
      · exact fun d hd => hi.header_same hd (hf.same _ (mem_smalls hd _))
      · exact hi.chain_frame hf
      · intro b hb
        refine ⟨hf.arena ▸ (hi.pages b hb).1, fun q hq => hpages b hb q ?_⟩
        rw [hpg'] at hq
        rwa [← ht.pages]
    | some b =>
      obtain ⟨hrun, hnew⟩ := hb b rfl
      obtain ⟨hr₃, hf₃⟩ := hr₂.store_record (a := c + 8) (v := b) (by omega) (by omega)
      obtain ⟨hr₄, hf₄⟩ := hr₃.store_record (a := c + 16) (v := h₁.bigblocks) (by omega) (by omega)
      have hf := (hf₂.trans hf₃).trans hf₄
      have hk : kmalloc s.heap size [page] (some b) =
          some (some b, linkRecord h₁ c ⟨b, findOrder (toInt size)⟩, rs) := by
        simp [kmalloc, hge, he, linkRecord]
      refine ⟨some b, _, rs, hk, fun h => hku ▸ hreq h,
        ⟨linkRecord h₁ c ⟨b, findOrder (toInt size)⟩, s.smalls, ⟨b, findOrder (toInt size)⟩ :: s.bigs⟩,
        L₁, ⟨c, b, findOrder (toInt size)⟩ :: recs, ?_, ?_, hi.sizes, ?_, ?_, ?_, ?_, ?_, ?_⟩
      · simp [SlobState.call, hk, hge]
      · exact (hr₄.setBigblocks c).perm List.perm_middle.symm
      · have hh := fun d hd => hi.header_same (c := d) hd (hf.same _ (mem_smalls hd _))
        exact hh
      · exact linkRecord_chain (hi.chain_frame hf)
      · rw [List.map_cons, hi.live]
      · intro d hd
        rcases List.mem_cons.1 hd with rfl | hd
        · exact ⟨hrun.1, hrun.2.1⟩
        · exact hi.aligned d hd
      · intro d hd
        have harena : (linkRecord h₁ c ⟨b, findOrder (toInt size)⟩).arena = s.heap.arena := ht.frame.arena
        have hpg : (linkRecord h₁ c ⟨b, findOrder (toInt size)⟩).pages = ps := ht.pages
        rw [harena, hpg]
        rcases List.mem_cons.1 hd with rfl | hd
        · refine ⟨hrun.2.2.1, fun q hq => ?_⟩
          rcases hps with rfl | ⟨p, hpage, rfl⟩
          · exact hrun.2.2.2.1 q hq
          · rcases List.mem_cons.1 hq with rfl | hq
            · exact hnew _ hpage
            · exact hrun.2.2.2.1 q hq
        · exact ⟨(hi.pages d hd).1, hpages d hd⟩
      · refine List.pairwise_cons.2 ⟨?_, hi.runs⟩
        intro x hx
        obtain ⟨d, hd, rfl⟩ := List.mem_map.1 hx
        exact hrun.2.2.2.2 d hd
  · have hk : kmalloc s.heap size [page] big = some (none, s.heap, []) := by
      simp [kmalloc, hge, he]
    refine ⟨_, _, _, hk, fun _ => hku ▸ hreq, s, L, recs, ?_, hi⟩
    simp [SlobState.call, hk]

theorem exists_eraseP {l : List α} {f : α → Nat} (hx : x ∈ l) (hf : f x = v) :
    ∃ pre y post, l = pre ++ y :: post ∧ f y = v ∧ l.eraseP (fun y => f y = v) = pre ++ post := by
  obtain ⟨y, pre, post, -, hy, hl, he⟩ := List.exists_of_eraseP (p := fun y => f y = v) hx (by simpa)
  exact ⟨pre, y, post, hl, by simpa using hy, he⟩

theorem SlobInv.ptr_ne (hi : SlobInv s L recs) (hb : b ∈ s.bigs) (hd : d ∈ s.smalls) :
    b.ptr ≠ d.ptr := by
  intro he
  have hdis := hi.outside hb (List.mem_append_right L (mem_smalls hd _))
  have hsize := hi.sizes d hd
  have hb0 : 0 < 256 * 2 ^ b.order := Nat.mul_pos (by decide) (Nat.two_pow_pos _)
  simp only [Seg.Disjoint, Seg.stop, BigChunk.seg, SmallChunk.seg, slobUnits, slobUnit] at *
  omega

/-- `kfree` of a small block: no big block has its address, even when it is page aligned. -/
theorem SlobInv.kfree_small (hi : SlobInv s L recs) (hc : c ∈ s.smalls) :
    ∃ s' L', s.call (.kfree c.ptr) = some s' ∧ SlobInv s' L' recs ∧ s'.heap.pages = s.heap.pages ∧
      s'.heap.arena = s.heap.arena ∧ s'.smalls = s.smalls.eraseP (fun d => d.ptr = c.ptr) ∧ s'.bigs = s.bigs := by
  obtain ⟨pre, d, post, hsplit, hdc, herase⟩ := exists_eraseP (f := SmallChunk.ptr) hc rfl
  have hd : d ∈ s.smalls := by rw [hsplit]; simp
  have hmem := mem_smalls hd (recs.map BigRec.seg)
  have hperm : (s.smalls.map SmallChunk.seg ++ recs.map BigRec.seg).Perm
      (d.seg :: ((pre ++ post).map SmallChunk.seg ++ recs.map BigRec.seg)) := by
    rw [hsplit]
    simp
  obtain ⟨h', L', hfree, hr', hf, hpg, -⟩ := slobFree_rep (hi.rep.perm hperm) (hi.header d hd)
  have hpos : 0 < d.ptr - slobUnit := hi.rep.addr_pos hmem
  have hbig : ∀ b ∈ s.bigs, b.ptr ≠ d.ptr := fun b hb => hi.ptr_ne hb hd
  have hunlink : bigblockUnlink s.heap d.ptr none s.heap.bigblocks s.heap.fuel =
      some (none, s.heap) := by
    refine bigblockUnlink_none hi.chain (fun r hr => hi.rec_pos hr) (fun r hr => ?_) hi.length_recs
    exact hbig _ (hi.live ▸ List.mem_map_of_mem hr)
  have hk : kfree s.heap d.ptr = some (h', none) := by
    have h0 : d.ptr ≠ 0 := by omega
    have hfree' : slobFree s.heap (d.ptr - slobUnit) 0 = some h' := hfree
    by_cases hal : d.ptr % pageSize = 0 <;> simp [kfree, h0, hal, hunlink, hfree']
  have hbigs : s.bigs.eraseP (fun b => b.ptr = d.ptr) = s.bigs :=
    List.eraseP_of_forall_not fun b hb => by simpa using hbig b hb
  have hsub : ∀ x ∈ pre ++ post, x ∈ s.smalls := fun x hx => by
    rw [hsplit]
    exact List.mem_append.2 ((List.mem_append.1 hx).imp_right (List.mem_cons_of_mem _))
  refine ⟨⟨h', pre ++ post, s.bigs⟩, L', ?_, ⟨hr', ?_, ?_, ?_, hi.live, hi.aligned, ?_, hi.runs⟩, hpg, hf.arena, herase.symm, rfl⟩
  · rw [← hdc] at herase ⊢
    simp [SlobState.call, hk, hbigs, herase]
  · exact fun x hx => hi.sizes x (hsub x hx)
  · exact fun x hx => hi.header_same (hsub x hx) (hf.same _ (mem_smalls hx _))
  · exact hi.chain_frame hf
  · intro b hb
    rw [hf.arena, hpg]
    exact hi.pages b hb

theorem SlobInv.walkBig (hi : SlobInv s L recs) :
    bigWalk s.heap s.heap.bigblocks s.heap.fuel = some recs :=
  bigWalk_eq hi.chain (fun _ hr => hi.rec_pos hr) hi.length_recs

/-- `kfree` of a big block gives back its pages and removes its record. -/
theorem SlobInv.kfree_big (hi : SlobInv s L (pre ++ r :: post)) :
    ∃ s' L', kfree s.heap r.chunk.ptr = some (s'.heap, some (r.chunk.ptr, 2 ^ r.chunk.order)) ∧
      s.call (.kfree r.chunk.ptr) = some s' ∧ SlobInv s' L' (pre ++ post) := by
  have hlive : s.bigs = pre.map BigRec.chunk ++ r.chunk :: post.map BigRec.chunk := by
    simpa using hi.live.symm
  have hb : r.chunk ∈ s.bigs := by rw [hlive]; simp
  have hsub : ∀ b ∈ (pre ++ post).map BigRec.chunk, b ∈ s.bigs := fun b hb => by
    rw [hlive]
    rw [List.map_append] at hb
    exact List.mem_append.2 ((List.mem_append.1 hb).imp_right (List.mem_cons_of_mem _))
  have hpre : ∀ x ∈ pre, x.chunk.ptr ≠ r.chunk.ptr := by
    intro x hx he
    have hruns := hi.runs
    rw [hlive, List.map_append] at hruns
    have hdis := (List.pairwise_append.1 hruns).2.2 x.chunk.seg
      (List.mem_map_of_mem (List.mem_map_of_mem hx)) r.chunk.seg (by simp)
    have h1 : 0 < 256 * 2 ^ x.chunk.order := Nat.mul_pos (by decide) (Nat.two_pow_pos _)
    have h2 : 0 < 256 * 2 ^ r.chunk.order := Nat.mul_pos (by decide) (Nat.two_pow_pos _)
    simp only [Seg.Disjoint, Seg.stop, BigChunk.seg] at hdis
    omega
  have hdrec : (pre ++ r :: post).Pairwise fun x y => x.seg.Disjoint y.seg := List.pairwise_map.1
    (List.pairwise_append.1 (List.pairwise_append.1 hi.rep.tiling.disjoint).2.1).2.1
  have hpos : ∀ x ∈ pre ++ [r], x.addr ≠ 0 := fun x hx => by
    refine hi.rec_pos (List.mem_append.2 ?_)
    exact (List.mem_append.1 hx).imp_right fun h => by simp_all
  have hlen : pre.length < s.heap.fuel := by
    have := hi.length_recs
    simp only [List.length_append] at this
    omega
  have hunlink : bigblockUnlink s.heap r.chunk.ptr none s.heap.bigblocks s.heap.fuel = _ :=
    bigblockUnlink_some hi.chain hpos hpre rfl hlen
  have hchain := hi.chain.unlink hdrec
  obtain ⟨h₁, he, hr₁, hsame, horder, harena, hpg⟩ := hi.rep.unlinkRec
  rw [he] at hunlink hchain
  have hperm : (s.smalls.map SmallChunk.seg ++ (pre ++ r :: post).map BigRec.seg).Perm
      (recordSeg r.addr :: (s.smalls.map SmallChunk.seg ++ (pre ++ post).map BigRec.seg)) := by
    have hr : recordSeg r.addr = r.seg := rfl
    simp only [List.map_append, List.map_cons, ← List.append_assoc, hr]
    exact List.perm_middle
  obtain ⟨h', L', hfree, hr', hf, hpg'⟩ := slobFree_record (hr₁.perm hperm)
  have hord : s.heap.bbOrder r.addr = r.chunk.order := by rw [hi.chain.chunk_eq]
  have hk : kfree s.heap r.chunk.ptr = some (h', some (r.chunk.ptr, 2 ^ r.chunk.order)) := by
    obtain ⟨h0, hal⟩ := hi.aligned _ hb
    simp [kfree, h0.ne', hal, hunlink, horder, hord, hfree]
  have hsmalls : s.smalls.eraseP (fun c => c.ptr = r.chunk.ptr) = s.smalls :=
    List.eraseP_of_forall_not fun c hc => by simpa using (hi.ptr_ne hb hc).symm
  have hbigs : s.bigs.eraseP (fun b => b.ptr = r.chunk.ptr) = (pre ++ post).map BigRec.chunk := by
    rw [hlive, List.eraseP_append_right, List.eraseP_cons_of_pos (by simp), List.map_append]
    intro b hb
    obtain ⟨x, hx, rfl⟩ := List.mem_map.1 hb
    simpa using hpre x hx
  refine ⟨⟨h', s.smalls, (pre ++ post).map BigRec.chunk⟩, L', hk, ?_, hr', hi.sizes, ?_, ?_, rfl,
    fun b hb => hi.aligned b (hsub b hb), fun b hb => ?_, ?_⟩
  · simp [SlobState.call, hk, hsmalls, hbigs]
  · intro c hc
    exact hi.header_same hc ((hsame _ (List.mem_map_of_mem hc)).trans (hf.same _ (mem_smalls hc _)))
  · rw [hf.bigblocks]
    exact hchain.congr fun x hx => hf.same _ (List.mem_append_right _ (List.mem_map_of_mem hx))
  · rw [hf.arena, harena, hpg', hpg]
    exact hi.pages b (hsub b hb)
  · refine hi.runs.sublist (List.Sublist.map _ ?_)
    rw [hlive, List.map_append]
    exact (List.Sublist.refl _).append (List.sublist_cons_self ..)

/-- The words a caller may store to hold no header and lie outside of the records. -/
theorem SlobInv.write_far (hi : SlobInv s L recs) (ha : s.allowed (.write a v)) :
    (∀ x ∈ L ++ s.smalls.map SmallChunk.seg, a < x.addr ∨ x.addr + 16 ≤ a) ∧
      ∀ r ∈ recs, a < r.addr ∨ r.addr + 32 ≤ a := by
  have hd := hi.rep.tiling.disjoint
  rw [← List.append_assoc] at hd
  obtain ⟨hLS, -, hR⟩ := List.pairwise_append.1 hd
  have hpos : ∀ x ∈ L ++ s.smalls.map SmallChunk.seg, 0 < x.units := fun x hx =>
    hi.rep.tiling.pos x (by rw [← List.append_assoc]; exact List.mem_append_left _ hx)
  rcases ha with ⟨c, hc, hca, hac⟩ | ⟨b, hb, hba, hab⟩
  · have hcm : c.seg ∈ L ++ s.smalls.map SmallChunk.seg :=
      List.mem_append_right _ (List.mem_map_of_mem hc)
    have hc0 : 0 < c.ptr - slobUnit := hi.rep.addr_pos (mem_smalls hc _)
    have hstop : c.seg.addr + 16 ≤ a ∧ a < c.seg.stop := by
      simp only [SmallChunk.seg, Seg.stop, slobUnits, slobUnit] at *
      omega
    refine ⟨fun x hx => ?_, fun r hr => ?_⟩
    · by_cases hxc : x = c.seg
      · exact .inr (hxc ▸ hstop.1)
      · have := hLS.forall hx hcm hxc
        have := hpos x hx
        simp only [Seg.Disjoint, Seg.stop] at *
        omega
    · have := hR c.seg hcm r.seg (List.mem_map_of_mem hr)
      simp only [Seg.Disjoint, BigRec.seg, addr_recordSeg, stop_recordSeg] at this
      omega
  · have hstop : b.seg.addr ≤ a := hba
    refine ⟨fun x hx => ?_, fun r hr => ?_⟩
    · have := hi.outside hb (by rw [← List.append_assoc]; exact List.mem_append_left _ hx)
      have := hpos x hx
      simp only [Seg.Disjoint, Seg.stop] at *
      omega
    · have := hi.outside hb (List.mem_append_right L (List.mem_append_right _ (List.mem_map_of_mem hr)))
      simp only [Seg.Disjoint, BigRec.seg, addr_recordSeg, stop_recordSeg] at this
      omega

/-- Stores of the callers into their blocks leave the heap as it is. -/
theorem SlobInv.write (hi : SlobInv s L recs) (ha : s.allowed (.write a v)) :
    ∃ s', s.call (.write a v) = some s' ∧ SlobInv s' L recs := by
  obtain ⟨hfar, hrec⟩ := hi.write_far ha
  refine ⟨_, rfl, hi.rep.store fun x hx => ?_, hi.sizes, fun c hc => ?_, ?_, hi.live, hi.aligned,
    hi.pages, hi.runs⟩
  · have := hfar x (List.mem_append_left _ hx)
    omega
  · rw [← hi.header c hc]
    have := hfar c.seg (List.mem_append_right _ (List.mem_map_of_mem hc))
    exact Function.update_of_ne (by omega) ..
  · exact hi.chain.congr fun r hr => sameOn_store (hrec r hr)

end Inv

end UCore
