import UCore.Mm.KmallocRuns

namespace UCore
set_option autoImplicit true

/-- The bytes from `p` on that `kmalloc(size)` gave to its caller are enough. -/
def RoomAt (h : SlobHeap) (size p : Nat) : Prop :=
  if size < pageSize - slobUnit then size ≤ (h.units (p - slobUnit) - 1) * slobUnit
  else h.bbPages h.bigblocks = p ∧ size ≤ pageSize * 2 ^ h.bbOrder h.bigblocks

instance (h : SlobHeap) (size p : Nat) : Decidable (RoomAt h size p) := by
  unfold RoomAt
  infer_instance

/-- The size is positive as an `int`, and the shifts of `find_order` do not round it down to a power of two. -/
def SizeFits (size : Nat) : Prop :=
  size < 2 ^ 31 ∧ ∀ k, size ≤ pageSize * 2 ^ k ∨ (pageSize + 1) * 2 ^ k ≤ size

/-- The size that `kmalloc(size)` passes to `slob_alloc`. -/
def slobRequest (size : Nat) : Nat :=
  if size < pageSize - slobUnit then size + slobUnit else bigblockSize

/-- The assertion of `slob_alloc` holds, and `kmalloc` returns with at most one page more in the arena. -/
structure KmallocReturns (h : SlobHeap) (size : Nat) (page big : Option Nat) : Prop where
  asserted : slobRequest size + slobUnit < pageSize
  returns : ∃ r h' rs, kmalloc h size [page] big = some (r, h', rs) ∧
    (h'.pages = h.pages ∨ ∃ p, page = some p ∧ h'.pages = p :: h.pages)

section Order

/-- The loop of `find_order` stops at the first order at which the shifted size is at most 4096. -/
theorem findOrderLoop_spec {size : Int} (order : Nat) (h : size < 4097 * 2 ^ fuel) :
    ∃ k, findOrderLoop size order fuel = order + k ∧ size < 4097 * 2 ^ k ∧ (k = 0 ∨ 4097 * 2 ^ (k - 1) ≤ size) := by
  induction fuel generalizing size order with
  | zero => exact ⟨0, rfl, h, .inl rfl⟩
  | succ fuel ih =>
    by_cases hs : 4096 < size
    · have hhalf : size / 2 < 4097 * 2 ^ fuel := by
        rw [pow_succ] at h
        omega
      obtain ⟨k, hk, hlt, hge⟩ := ih (order + 1) hhalf
      refine ⟨k + 1, ?_, ?_, .inr ?_⟩
      · rw [findOrderLoop, if_pos hs, hk]
        exact Nat.add_right_comm order 1 k
      · rw [pow_succ]
        omega
      · rw [Nat.add_sub_cancel]
        rcases hge with rfl | hge
        · exact hs
        · cases k with
          | zero => exact hs
          | succ k =>
            rw [Nat.add_sub_cancel] at hge
            rw [pow_succ]
            omega
    · refine ⟨0, ?_, ?_, .inl rfl⟩
      · rw [findOrderLoop, if_neg hs]
        rfl
      · omega

theorem toInt_lt (n : Nat) : toInt n < 2 ^ 31 := by
  unfold toInt
  split <;> omega

theorem findOrder_spec (size : Nat) : toInt size < 4097 * 2 ^ findOrder (toInt size) ∧
    (findOrder (toInt size) = 0 ∨ 4097 * 2 ^ (findOrder (toInt size) - 1) ≤ toInt size) := by
  have hlt : toInt size < 4097 * 2 ^ 32 := (toInt_lt size).trans (by decide)
  obtain ⟨k, hk, h⟩ := findOrderLoop_spec 0 hlt
  rw [Nat.zero_add] at hk
  rw [findOrder, hk]
  exact h

/-- The order is large enough exactly for the sizes that fit. -/
theorem findOrder_iff (size : Nat) : size ≤ pageSize * 2 ^ findOrder (toInt size) ↔ SizeFits size := by
  obtain ⟨hlt, hge⟩ := findOrder_spec size
  generalize findOrder (toInt size) = order at *
  by_cases hs : size < 2 ^ 31
  · have hint : toInt size = size := by
      unfold toInt
      omega
    rw [hint] at hlt hge
    have hlt : size < (pageSize + 1) * 2 ^ order := by exact_mod_cast hlt
    constructor
    · refine fun hle => ⟨hs, fun k => ?_⟩
      rcases Nat.lt_or_ge k order with hk | hk
      · rcases hge with rfl | hge
        · exact absurd hk (Nat.not_lt_zero k)
        · have hge : (pageSize + 1) * 2 ^ (order - 1) ≤ size := by exact_mod_cast hge
          have hpow : 2 ^ k ≤ 2 ^ (order - 1) := Nat.pow_le_pow_right (by decide) (Nat.le_sub_one_of_lt hk)
          exact .inr ((Nat.mul_le_mul_left _ hpow).trans hge)
      · exact .inl (hle.trans (Nat.mul_le_mul_left _ (Nat.pow_le_pow_right (by decide) hk)))
    · intro h
      rcases h.2 order with h | h
      · exact h
      · exact absurd h (Nat.not_le.2 hlt)
  · refine iff_of_false (fun hle => ?_) fun h => hs h.1
    rcases hge with rfl | hge
    · simp only [pageSize] at hle
      omega
    · have hlow : 2 ^ (order - 1) < 2 ^ 19 := by
        have := toInt_lt size
        have hpow : (2 : Int) ^ (order - 1) < 2 ^ 19 := by omega
        exact_mod_cast hpow
      have horder : order ≤ 19 := by
        have := (Nat.pow_lt_pow_iff_right (by decide : 1 < 2)).1 hlow
        omega
      have hpow : 2 ^ order ≤ 2 ^ 19 := Nat.pow_le_pow_right (by decide) horder
      have hpos : (0 : Int) < 2 ^ (order - 1) := Int.pow_pos (by decide)
      have hne : size ≠ 2 ^ 31 := by
        rintro rfl
        have : toInt (2 ^ 31) < 0 := by decide
        omega
      simp only [pageSize] at hle
      omega

end Order

section Calls
variable {s : SlobState} {L used : List Seg} {recs : List BigRec} {h h' : SlobHeap}

theorem slobUnits_room (h1 : 1 ≤ size) : size ≤ (slobUnits (size + slobUnit) - 1) * slobUnit := by
  simp only [slobUnits, slobUnit]
  omega

/-- The big path behind the call of `slob_alloc` for the record. -/
theorem kmalloc_record (hge : ¬ size < pageSize - slobUnit) (hr : SlobTaken h h' c 2 used ps)
    (he : slobAlloc h bigblockSize 0 rs = some (some c, h', rs')) (big : Option Nat) :
    ∃ r h'', kmalloc h size rs big = some (r, h'', rs') ∧ h''.pages = ps ∧
      ∀ p, r = some p → h'' = linkRecord h' c ⟨p, findOrder (toInt size)⟩ := by
  cases big with
  | some b =>
    refine ⟨some b, linkRecord h' c ⟨b, findOrder (toInt size)⟩, ?_, hr.pages, ?_⟩
    · simp [kmalloc, hge, he, linkRecord]
    · intro p hp
      cases hp
      rfl
  | none =>
    obtain ⟨L', hrep⟩ := hr.rep
    obtain ⟨hrep, -⟩ := SlobRep.store_record (v := findOrder (toInt size)) hrep le_rfl (Nat.lt_add_of_pos_right
      (by decide))
    obtain ⟨hrep, -⟩ := hrep.store_record (a := c + 8) (v := 0) (Nat.le_add_right c 8)
      (Nat.add_lt_add_left (by decide) c)
    obtain ⟨h'', L'', hfree, -, -, hpages⟩ := slobFree_record hrep
    refine ⟨none, h'', ?_, hpages.trans hr.pages, ?_⟩
    · simp [kmalloc, hge, he, hfree]
    · intro p hp
      cases hp

/-- A block that `kmalloc` returns has enough room exactly if the size fits. -/
theorem kmalloc_room_iff (hi : SlobInv s L recs) (h1 : 1 ≤ size) (hp : ∀ p, page = some p → s.FreshPage p)
    (hk : kmalloc s.heap size [page] big = some (some p, h, rs)) : RoomAt h size p ↔ SizeFits size := by
  have hpage : ∀ p, page = some p → ArenaPage s.heap p := fun p h => FreshPage.arenaPage (hp p h)
  by_cases hlt : size < pageSize - slobUnit
  · have hfits : SizeFits size := by
      have hle : size ≤ pageSize := hlt.le.trans (Nat.sub_le ..)
      refine ⟨hle.trans_lt (by decide), fun k => .inl (hle.trans ?_)⟩
      exact Nat.le_mul_of_pos_right _ (Nat.two_pow_pos k)
    refine iff_of_true ?_ hfits
    have hassert : size + slobUnit + slobUnit < pageSize := by
      by_contra hno
      simp [kmalloc, hlt, slobAlloc, hno] at hk
    rcases slobAlloc_total hi.rep (Nat.lt_add_of_pos_left h1) hassert hpage with
      ⟨c, h', rs', ps, he, ht, -, -⟩ | ⟨he, -⟩
    · simp only [kmalloc, if_pos hlt, he] at hk
      cases hk
      rw [RoomAt, if_pos hlt, Nat.add_sub_cancel, ht.header]
      exact slobUnits_room h1
    · simp [kmalloc, hlt, he] at hk
  · rcases slobAlloc_total hi.rep (by decide : slobUnit < bigblockSize) (by decide) hpage with
      ⟨c, h', rs', ps, he, ht, -, -⟩ | ⟨he, -⟩
    · obtain ⟨r, h'', hrun, -, hlink⟩ := kmalloc_record hlt ht he big
      cases hrun.symm.trans hk
      rw [RoomAt, if_neg hlt, hlink p rfl, ← findOrder_iff]
      have hbb : (linkRecord h' c ⟨p, findOrder (toInt size)⟩).bigblocks = c := rfl
      have hpages : (linkRecord h' c ⟨p, findOrder (toInt size)⟩).bbPages c = p := by
        simp [linkRecord, SlobHeap.bbPages]
      have horder : (linkRecord h' c ⟨p, findOrder (toInt size)⟩).bbOrder c = findOrder (toInt size) := by
        simp [linkRecord, SlobHeap.bbOrder]
      rw [hbb, hpages, horder]
      exact and_iff_right rfl
    · simp [kmalloc, hlt, he] at hk

/-- `kmalloc` returns exactly if the size is not one of the 16 that fail the assertion. -/
theorem kmalloc_returns_iff (hi : SlobInv s L recs) (h1 : 1 ≤ size) (hp : ∀ p, page = some p → s.FreshPage p) :
    KmallocReturns s.heap size page big ↔ ¬ (pageSize - 2 * slobUnit ≤ size ∧ size < pageSize - slobUnit) := by
  have hpage : ∀ p, page = some p → ArenaPage s.heap p := fun p h => FreshPage.arenaPage (hp p h)
  by_cases hlt : size < pageSize - slobUnit
  · have hreq : slobRequest size = size + slobUnit := if_pos hlt
    have hiff : size + slobUnit + slobUnit < pageSize ↔
        ¬ (pageSize - 2 * slobUnit ≤ size ∧ size < pageSize - slobUnit) := by
      simp only [pageSize, slobUnit] at *
      omega
    rw [← hiff]
    constructor
    · intro h
      exact hreq ▸ h.asserted
    · intro hassert
      refine ⟨hreq.symm ▸ hassert, ?_⟩
      rcases slobAlloc_total hi.rep (Nat.lt_add_of_pos_left h1) hassert hpage with
        ⟨c, h', rs', ps, he, ht, hps, -⟩ | ⟨he, -⟩
      · refine ⟨some (c + slobUnit), h', rs', ?_, ?_⟩
        · simp [kmalloc, hlt, he]
        · rw [ht.pages]
          exact hps
      · refine ⟨none, s.heap, [], ?_, .inl rfl⟩
        simp [kmalloc, hlt, he]
  · have hreq : slobRequest size = bigblockSize := if_neg hlt
    refine iff_of_true ⟨hreq.symm ▸ by decide, ?_⟩ fun h => hlt h.2
    rcases slobAlloc_total hi.rep (by decide : slobUnit < bigblockSize) (by decide) hpage with
      ⟨c, h', rs', ps, he, ht, hps, -⟩ | ⟨he, -⟩
    · obtain ⟨r, h'', hrun, hpages, -⟩ := kmalloc_record hlt ht he big
      rw [← hpages] at hps
      exact ⟨r, h'', rs', hrun, hps⟩
    · refine ⟨none, s.heap, [], ?_, .inl rfl⟩
      simp [kmalloc, hlt, he]

end Calls

/-- The heap at boot satisfies the invariant. -/
theorem slobBoot_inv : SlobInv slobBoot [⟨64, 1⟩] [] := slob_init_inv ⟨rfl, rfl, rfl, rfl, rfl, rfl, rfl⟩

theorem slobBoot_fresh : ∀ p, some 4096 = some p → slobBoot.FreshPage p := by
  intro p hp
  cases hp
  unfold SlobState.FreshPage
  decide

theorem kmalloc_room_iff_boot : ∃ h rs, kmalloc slobBoot.heap 8192 [some 4096] (some 16384) = some (some 16384, h, rs) ∧
    (RoomAt h 8192 16384 ↔ SizeFits 8192) := by
  have hrun : (kmalloc slobBoot.heap 8192 [some 4096] (some 16384)).map Prod.fst = some (some 16384) := by
    decide +kernel
  obtain ⟨⟨r, h, rs⟩, hk, hr⟩ := Option.map_eq_some_iff.1 hrun
  cases hr
  exact ⟨h, rs, hk, kmalloc_room_iff slobBoot_inv (by decide) slobBoot_fresh hk⟩

/-- A request for one byte more than two pages gets two pages, and one for 2 ^ 31 bytes gets one. -/
theorem kmalloc_short : SlobInv slobBoot [⟨64, 1⟩] [] ∧ (∀ p, some 4096 = some p → slobBoot.FreshPage p) ∧
    ∀ size ∈ [2 * 4096 + 1, 2 ^ 31], ∃ h rs,
      kmalloc slobBoot.heap size [some 4096] (some 16384) = some (some 16384, h, rs) ∧ ¬ RoomAt h size 16384 := by
  refine ⟨slobBoot_inv, slobBoot_fresh, fun size hs => ?_⟩
  have hrun : ∀ size ∈ [2 * 4096 + 1, 2 ^ 31], (kmalloc slobBoot.heap size [some 4096] (some 16384)).map
      (fun x => (x.1, decide (RoomAt x.2.1 size 16384))) = some (some 16384, false) := by
    decide +kernel
  obtain ⟨⟨r, h, rs⟩, hk, hr⟩ := Option.map_eq_some_iff.1 (hrun size hs)
  obtain ⟨rfl, hno⟩ := Prod.mk.inj hr
  exact ⟨h, rs, hk, of_decide_eq_false hno⟩

theorem kmalloc_returns_iff_boot : KmallocReturns slobBoot.heap 4063 (some 4096) none :=
  (kmalloc_returns_iff slobBoot_inv (by decide) slobBoot_fresh).2 (by decide)

/-- A request for 4064 bytes fails the assertion of `slob_alloc`. -/
theorem kmalloc_panics : SlobInv slobBoot [⟨64, 1⟩] [] ∧ (∀ p, some 4096 = some p → slobBoot.FreshPage p) ∧
    kmalloc slobBoot.heap 4064 [some 4096] none = none ∧ ¬ KmallocReturns slobBoot.heap 4064 (some 4096) none := by
  refine ⟨slobBoot_inv, slobBoot_fresh, rfl, fun h => ?_⟩
  exact absurd h.asserted (by decide)

end UCore
