import UCore.Lib.Machine
import UCore.Mm.KmallocCalls

namespace UCore
set_option autoImplicit true

/-- The heap at boot: the free list is the static arena unit alone. -/
def slobMachine : Machine SlobState SlobCall where
  init s := s.heap.next s.heap.arena = s.heap.arena ∧ s.heap.units s.heap.arena = 1 ∧
    s.heap.slobfree = s.heap.arena ∧ s.heap.bigblocks = 0 ∧ s.heap.pages = [] ∧
    s.smalls = [] ∧ s.bigs = []
  enabled := SlobState.allowed
  next := SlobState.call

instance slobEnabledDecidable (s : SlobState) (c : SlobCall) : Decidable (slobMachine.enabled s c) :=
  inferInstanceAs (Decidable (s.allowed c))

/-- The heap is sound: `L` is the free list and `recs` the records of the big blocks. -/
structure SlobSafe (s : SlobState) (L : List Seg) (recs : List BigRec) : Prop where
  walk : slobWalk s.heap s.heap.slobfree s.heap.fuel = some L
  wrap : OneWrap (L.map Seg.addr)
  arena : ⟨s.heap.arena, 1⟩ ∈ L
  apart : L.Pairwise Seg.Apart
  header : ∀ c ∈ s.smalls, s.heap.units (c.ptr - slobUnit) = slobUnits (c.size + slobUnit)
  records : bigWalk s.heap s.heap.bigblocks s.heap.fuel = some recs
  live : recs.map BigRec.chunk = s.bigs
  disjoint : (L ++ s.smalls.map SmallChunk.seg ++ recs.map BigRec.seg ++
    s.bigs.map BigChunk.seg).Pairwise Seg.Disjoint
  total : totalUnits (L ++ s.smalls.map SmallChunk.seg ++ recs.map BigRec.seg) =
    1 + 256 * s.heap.pages.length
  kmalloc : ∀ size page big, s.allowed (.kmalloc size page big) →
    ∃ r h rs, kmalloc s.heap size [page] big = some (r, h, rs) ∧
      (rs = [] → ∀ b ∈ L, b.units < kmallocUnits size)
  kfree : ∀ pre r post, recs = pre ++ r :: post → ∃ h,
    kfree s.heap r.chunk.ptr = some (h, some (r.chunk.ptr, 2 ^ r.chunk.order)) ∧
      bigWalk h h.bigblocks h.fuel = some (pre ++ post)

section Runs
variable {s : SlobState} {L : List Seg} {recs : List BigRec}

theorem slob_init_inv (h : slobMachine.init s) : SlobInv s [⟨s.heap.arena, 1⟩] [] := by
  obtain ⟨hn, hu, hf, hb, hp, hs, hbig⟩ := h
  refine ⟨⟨⟨?_, ?_, ?_, ?_, List.pairwise_singleton ..⟩, List.pairwise_singleton .., ?_,
    List.mem_singleton_self _, ⟨?_, ?_, ?_, ?_⟩, ?_⟩, ?_, ?_, hb, ?_, ?_, ?_, ?_⟩
  · simpa [Cycle] using hn
  · exact ⟨[s.heap.arena], List.pairwise_singleton .., .refl _⟩
  · simpa using hu
  · simp
  · simpa using hf
  all_goals simp [hs, hbig, hp, totalUnits]

theorem option_forall {o : Option α} {p : α → Prop} (h : ∀ x ∈ o.toList, p x) :
    ∀ x, o = some x → p x := by
  rintro x rfl
  exact h x (by simp)

theorem SlobInv.kmalloc (hi : SlobInv s L recs) (ha : s.allowed (.kmalloc size page big)) :
    ∃ r h rs, UCore.kmalloc s.heap size [page] big = some (r, h, rs) ∧
      (rs = [] → ∀ b ∈ L, b.units < kmallocUnits size) ∧
      ∃ s' L' recs', s.call (.kmalloc size page big) = some s' ∧ SlobInv s' L' recs' := by
  obtain ⟨h1, -, hsz, hp, hb⟩ := ha
  rcases hsz with hsz | hsz
  · exact hi.kmalloc_small h1 hsz (option_forall hp)
  · exact hi.kmalloc_big hsz (option_forall hp)
      fun b hbig => ⟨(option_forall hb b hbig).1, option_forall (option_forall hb b hbig).2⟩

/-- Every call returns, and keeps the invariant. -/
theorem SlobInv.call (hi : SlobInv s L recs) (ha : s.allowed c) :
    ∃ s' L' recs', s.call c = some s' ∧ SlobInv s' L' recs' := by
  cases c with
  | kmalloc size page big => exact (hi.kmalloc ha).choose_spec.choose_spec.choose_spec.2.2
  | kfree ptr =>
    rcases ha with ⟨c, hc, rfl⟩ | ⟨b, hb, rfl⟩
    · obtain ⟨s', L', hs, hi', -⟩ := hi.kfree_small hc
      exact ⟨s', L', recs, hs, hi'⟩
    · rw [← hi.live] at hb
      obtain ⟨r, hr, rfl⟩ := List.mem_map.1 hb
      obtain ⟨pre, post, rfl⟩ := List.append_of_mem hr
      obtain ⟨s', L', -, hs⟩ := hi.kfree_big
      exact ⟨s', L', pre ++ post, hs⟩
  | write a v =>
    obtain ⟨s', hs⟩ := hi.write ha
    exact ⟨s', L, recs, hs⟩

theorem slob_reachable_inv (h : slobMachine.Reachable s) : ∃ L recs, SlobInv s L recs := by
  refine h.invariant (fun s => ∃ L recs, SlobInv s L recs) (fun s hs => ⟨_, _, slob_init_inv hs⟩) ?_
  rintro s c s' ⟨L, recs, hi⟩ ha hc
  obtain ⟨t, L', recs', ht, hi'⟩ := hi.call ha
  obtain rfl : t = s' := Option.some.inj (ht.symm.trans hc)
  exact ⟨L', recs', hi'⟩

theorem SlobInv.safe (hi : SlobInv s L recs) : ∃ L', SlobSafe s L' recs := by
  obtain ⟨L', hwalk, hrep⟩ := hi.rep.walk
  have hi' : SlobInv s L' recs := { hi with rep := hrep }
  refine ⟨L', hwalk, hrep.wrap, hrep.arena, hrep.apart, hi.header, hi.walkBig, hi.live, ?_, ?_, ?_, ?_⟩
  · refine List.pairwise_append.2 ⟨?_, hi.runs, fun x hx y hy => ?_⟩
    · rw [List.append_assoc]
      exact hrep.tiling.disjoint
    · obtain ⟨b, hb, rfl⟩ := List.mem_map.1 hy
      rw [List.append_assoc] at hx
      exact (hi'.outside hb hx).symm
  · rw [List.append_assoc]
    exact hrep.tiling.total
  · intro size page big ha
    obtain ⟨r, h, rs, hk, hreq, -⟩ := hi'.kmalloc ha
    exact ⟨r, h, rs, hk, hreq⟩
  · rintro pre r post rfl
    obtain ⟨s', L'', hk, -, hs⟩ := hi'.kfree_big
    exact ⟨s'.heap, hk, hs.walkBig⟩

/-- Over whole runs the heap is sound, and no allowed call fails. -/
theorem slob_heap_safe (h : slobMachine.Reachable s) :
    (∃ L recs, SlobSafe s L recs) ∧ ∀ c, s.allowed c → ∃ s', s.call c = some s' := by
  obtain ⟨L, recs, hi⟩ := slob_reachable_inv h
  obtain ⟨L', hs⟩ := hi.safe
  refine ⟨⟨L', recs, hs⟩, fun c ha => ?_⟩
  obtain ⟨s', -, -, hc, -⟩ := hi.call ha
  exact ⟨s', hc⟩

end Runs

/-- The heap at boot, with the arena unit at 64. -/
def slobBoot : SlobState where
  heap := { mem := fun w => if w = 64 then 1 else if w = 72 then 64 else 0, arena := 64, slobfree := 64,
            bigblocks := 0, pages := [] }
  smalls := []
  bigs := []

theorem slob_heap_safe_boot : ∃ s : SlobState, s.smalls = [⟨4144, 50⟩] ∧ s.bigs = [⟨16384, 1⟩] ∧
    (∃ L recs, SlobSafe s L recs) ∧ ∀ c, s.allowed c → ∃ s', s.call c = some s' := by
  have hrun : (slobMachine.exec slobBoot [.kmalloc 16 (some 4096) none, .kmalloc 50 none none,
      .kfree 4112, .kmalloc 5000 none (some 16384)]).map (fun s => (s.smalls, s.bigs)) =
      some ([⟨4144, 50⟩], [⟨16384, 1⟩]) := by decide +kernel
  obtain ⟨s, hs, hval⟩ := Option.map_eq_some_iff.1 hrun
  obtain ⟨h₁, h₂⟩ := Prod.mk.inj hval
  have hinit : slobMachine.Reachable slobBoot := .init ⟨rfl, rfl, rfl, rfl, rfl, rfl, rfl⟩
  exact ⟨s, h₁, h₂, slob_heap_safe (hinit.exec hs)⟩

end UCore
