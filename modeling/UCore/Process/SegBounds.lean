import UCore.Mm.FramePool
import UCore.Process.SegLoops

namespace UCore
set_option autoImplicit true

/-- A write of `size` bytes at the offset `off` of a page, or the assertion behind the last file page. -/
inductive SegEvent where
  | write (off size : Nat)
  | assert (holds : Bool)
  deriving DecidableEq, Repr

/-- The write stays in its page; the assertion holds. -/
def SegEvent.Good : SegEvent → Prop
  | write off size => off ≤ pgSize ∧ size ≤ pgSize ∧ off + size ≤ pgSize
  | assert holds => holds = true

instance : DecidablePred SegEvent.Good := fun e => by
  cases e <;> unfold SegEvent.Good <;> infer_instance

/-- The number of allocations that will still succeed, and what has happened so far. -/
structure SegLog where
  allocs : Nat
  events : List SegEvent
  deriving DecidableEq, Repr

def SegLog.emit (s : SegLog) (e : SegEvent) : SegLog := { s with events := s.events ++ [e] }

/-- Writes down what is done, whatever the memory is. -/
def segLogEnv : SegEnv SegLog where
  pgdirAllocPage s _ :=
    if s.allocs = 0 then some (none, s) else some (some 0, { s with allocs := s.allocs - 1 })
  memcpy s _ off _ size := some (s.emit (.write off size))
  memset s _ off size := some (s.emit (.write off size))
  assert s b := some (s.emit (.assert b))

namespace ProgHdr

/-- The checks of `load_icode` and `mm_map` accept the segment. -/
def Accepted (ph : ProgHdr) : Prop :=
  ph.pFilesz.toNat ≤ ph.pMemsz.toNat ∧
    UserAccess (roundDown ph.pVa.toNat pgSize) (roundUp (addW ph.pVa.toNat ph.pMemsz.toNat) pgSize)

instance : Decidable (Accepted ph) := inferInstanceAs (Decidable (_ ∧ _))

/-- Where `p_va + p_memsz` wraps, the file part is empty, ends with a page, or does not end before the last
page of the address space. -/
def Fits (ph : ProgHdr) : Prop :=
  ph.pVa.toNat + ph.pMemsz.toNat < 2 ^ 64 ∨ ph.pFilesz.toNat = 0 ∨
    2 ^ 64 - pgSize < ph.pVa.toNat + ph.pFilesz.toNat ∨
      (ph.pVa.toNat + ph.pFilesz.toNat) % pgSize = 0

instance : Decidable (Fits ph) := inferInstanceAs (Decidable (_ ∨ _))

end ProgHdr

/-- `mm_map` accepts only what rounds to a range of user addresses. -/
theorem mmMap_access {A : PhysSys} {m m' : Mem A} (h : m.mmMap mm addr len flags = some (0, m')) :
    UserAccess (roundDown addr pgSize) (roundUp (addW addr len) pgSize) := by
  unfold Mem.mmMap at h
  dsimp only at h
  split at h
  · cases h
  · rename_i hacc
    exact not_not.1 hacc

/-- In an address space without areas it accepts all of that, if there is memory for the area. -/
theorem mmMap_new {A : PhysSys} {m : Mem A} {s : A.σ}
    (hacc : UserAccess (roundDown addr pgSize) (roundUp (addW addr len) pgSize))
    (hl : (m.mms mm).mmapList = []) (hc : (m.mms mm).mmapCache = none)
    (hk : A.kmalloc m.phys = (some ptr, s)) : ∃ m', m.mmMap mm addr len flags = some (0, m') := by
  unfold Mem.mmMap Mem.findVma Mem.vmaCreate Mem.insertVmaStruct
  simp only [hacc, hl, hc, hk, not_true_eq_false, if_false, Option.filter_none, List.find?_nil, Option.or_none]
  simp [hl, hacc.2.1, Mem.setPhys]

/-- The segments that are accepted are those for which both checks pass in some state. -/
theorem ProgHdr.accepted_iff (ph : ProgHdr) : ph.Accepted ↔ ph.pFilesz.toNat ≤ ph.pMemsz.toNat ∧
    ∃ (m m' : Mem framePool) (mm : Nat) (flags : BitVec 32),
      m.mmMap mm ph.pVa.toNat ph.pMemsz.toNat flags = some (0, m') := by
  constructor
  · intro h
    have hm : ∃ m', poolMem.mmMap 0 ph.pVa.toNat ph.pMemsz.toNat 0 = some (0, m') :=
      mmMap_new h.2 rfl rfl rfl
    obtain ⟨m', hm⟩ := hm
    exact ⟨h.1, poolMem, m', 0, 0, hm⟩
  · rintro ⟨hle, m, m', mm, flags, hm⟩
    exact ⟨hle, mmMap_access hm⟩

/-- The log has nothing bad in it. -/
def SegLog.AllGood (s : SegLog) : Prop := ∀ e ∈ s.events, e.Good

theorem SegLog.AllGood.emit {s : SegLog} (h : s.AllGood) (he : e.Good) : (s.emit e).AllGood := by
  intro x hx
  cases List.mem_append.1 hx with
  | inl hx => exact h x hx
  | inr hx =>
    obtain rfl := List.mem_singleton.1 hx
    exact he

theorem segChunk_good (h : InPage start la) (hlt : start < stop) (hs : stop < 2 ^ 64) :
    (SegEvent.write (segChunk start la stop).1 (segChunk start la stop).2).Good := by
  obtain ⟨hoff, hsum, -⟩ := segChunk_spec h hlt hs
  rw [hoff]
  exact ⟨by omega, by omega, hsum⟩

/-- The place where the file part has ended is in the part up to `stop`, or there is nothing left to do. -/
def BssStart (start la stop : Nat) : Prop :=
  if start < la then start ≤ stop ∧ la < start + pgSize ∧ la % pgSize = 0
  else InPage start la ∨ ¬ start < stop

theorem zeroLoop_good (hs : stop < 2 ^ 64) (hin : InPage start la ∨ ¬ start < stop) (hg : s.AllGood)
    (h : segLogEnv.zeroLoop stop s start la fuel = some (b, t)) : t.AllGood := by
  have hall := zeroLoop_pages (fun _ _ s => s.AllGood) SegLog.AllGood ?_ ?_ hs hin hg h
  · cases b with
    | false => exact hall
    | true =>
      obtain ⟨-, -, -, hall⟩ := hall
      exact hall
  · intro s start la t hg _ _ ha
    unfold segLogEnv at ha
    dsimp only at ha
    split at ha <;> cases ha
    exact hg
  · intro s start la p t u hg hin hlt ha hc
    unfold segLogEnv at ha hc
    dsimp only at ha hc
    split at ha <;> cases ha
    cases hc
    exact SegLog.AllGood.emit hg (segChunk_good hin hlt hs)

theorem bssPart_good (hs : stop < 2 ^ 64) (hl : la < 2 ^ 64) (hst : BssStart start la stop) (hg : s.AllGood)
    (h : segLogEnv.bssPart stop s page start la = some (b, t)) : t.AllGood := by
  unfold BssStart at hst
  rcases bssPart_cases h with ⟨-, -, -, rfl⟩ | ⟨hlt, hne, p, s₁, s₂, off, size, hc, -, hm, ha, h⟩ | ⟨hge, h⟩
  · exact hg
  · rw [if_pos hlt] at hst
    obtain ⟨h₁, h₂, h₃⟩ := hst
    have hpg : pgSize ≤ la := by
      unfold pgSize at *
      omega
    have hin : InPage start (la - pgSize) := by
      refine ⟨?_, ?_, ?_⟩ <;> unfold pgSize at * <;> omega
    have hlt' : start < stop := by omega
    rw [bssChunk_eq hin hpg hl] at hc
    have hgood := segChunk_good hin hlt' hs
    have hnext := segChunk_next hin hlt' hs
    rw [show addW (la - pgSize) pgSize = la by unfold addW; omega, Nat.sub_add_cancel hpg] at hnext
    rw [hc] at hgood hnext
    dsimp only at hnext
    cases hm
    cases ha
    have hend : (stop < la ∧ addW start size = stop ∨ stop ≥ la ∧ addW start size = la) ∧
        (InPage (addW start size) la ∨ ¬ addW start size < stop) := by
      rcases hnext with ⟨hin', heq, hle⟩ | ⟨heq, -, hend⟩
      · exact ⟨.inr ⟨by omega, heq⟩, .inl hin'⟩
      · exact ⟨.inl ⟨hend, heq⟩, .inr (by omega)⟩
    refine zeroLoop_good hs hend.2 ?_ h
    exact (SegLog.AllGood.emit hg hgood).emit (decide_eq_true hend.1)
  · rw [if_neg hge] at hst
    exact zeroLoop_good hs hst hg h

/-- The file loop with the log: where it has something to do, and ends. -/
theorem copyLoop_good (hs : stop < 2 ^ 64) (hin : InPage start la) (hlt : start < stop) (hg : s.AllGood)
    (h : segLogEnv.copyLoop stop s page start la src fuel = some (r, t)) :
    t.AllGood ∧ ∀ page start la, r = some (page, start, la) →
      start = stop ∧ stop ≤ la ∧ la < stop + pgSize ∧ la % pgSize = 0 ∧ stop + pgSize ≤ 2 ^ 64 := by
  have hall := copyLoop_pages (fun _ _ _ _ s => s.AllGood) SegLog.AllGood ?_ ?_ hs hin hlt hg h
  · obtain ⟨hnone, hsome⟩ := hall
    cases r with
    | none => exact ⟨hnone rfl, nofun⟩
    | some x =>
      obtain ⟨page, start, la⟩ := x
      obtain ⟨h₁, h₂, h₃, h₄, h₅, -, -, hg⟩ := hsome page start la rfl
      refine ⟨hg, fun page' start' la' hr => ?_⟩
      cases hr
      exact ⟨h₁, h₂, h₃, h₄, h₅⟩
  · intro s page start la src t hg _ _ ha
    unfold segLogEnv at ha
    dsimp only at ha
    split at ha <;> cases ha
    exact hg
  · intro s page start la src p t u hg hin hlt ha hc
    unfold segLogEnv at ha hc
    dsimp only at ha hc
    split at ha <;> cases ha
    cases hc
    exact SegLog.AllGood.emit hg (segChunk_good hin hlt hs)

theorem inPage_roundDown (a : Nat) : InPage a (roundDown a pgSize) := by
  unfold roundDown
  refine ⟨?_, ?_, ?_⟩ <;> unfold pgSize <;> omega

/-- Where `p_va + p_memsz` wraps, the segment was accepted because it ends in the page where it starts, before
its start. -/
theorem ProgHdr.Accepted.cases (h : ProgHdr.Accepted ph) :
    ph.pVa.toNat + ph.pMemsz.toNat < 2 ^ 64 ∨
      2 ^ 64 ≤ ph.pVa.toNat + ph.pMemsz.toNat ∧ addW ph.pVa.toNat ph.pMemsz.toNat < ph.pVa.toNat ∧
        roundDown ph.pVa.toNat pgSize < addW ph.pVa.toNat ph.pMemsz.toNat := by
  have hva := ph.pVa.isLt
  have hmem := ph.pMemsz.isLt
  obtain ⟨-, h₁, h₂, h₃⟩ := h
  unfold roundUp roundDown userBase userTop addW at *
  unfold pgSize at *
  omega

/-- Where the file part of a segment that fits has ended, the bss part can go on. -/
theorem ProgHdr.Fits.bssStart (h : ProgHdr.Accepted ph) (hf : ProgHdr.Fits ph)
    (hlt : ph.pVa.toNat < addW ph.pVa.toNat ph.pFilesz.toNat)
    (hle : addW ph.pVa.toNat ph.pFilesz.toNat + pgSize ≤ 2 ^ 64)
    (h₁ : addW ph.pVa.toNat ph.pFilesz.toNat ≤ la) (h₂ : la < addW ph.pVa.toNat ph.pFilesz.toNat + pgSize)
    (h₃ : la % pgSize = 0) :
    BssStart (addW ph.pVa.toNat ph.pFilesz.toNat) la (addW ph.pVa.toNat ph.pMemsz.toNat) := by
  have hva := ph.pVa.isLt
  have hsz := ph.pFilesz.isLt
  have hmem := ph.pMemsz.isLt
  have hcases := h.cases
  have hsub := h.1
  unfold BssStart
  split
  · refine ⟨?_, h₂, h₃⟩
    unfold ProgHdr.Fits addW at *
    unfold pgSize at *
    omega
  · exact .inl ⟨h₃, by omega, by omega⟩

theorem segment_good (h : ph.Accepted) (hf : ph.Fits)
    (hr : segLogEnv.loadSegment ⟨allocs, []⟩ binary ph = some (b, t)) : t.AllGood := by
  have hnil : SegLog.AllGood ⟨allocs, []⟩ := fun e he => by cases he
  have hin := inPage_roundDown ph.pVa.toNat
  have hmem : addW ph.pVa.toNat ph.pMemsz.toNat < 2 ^ 64 := Nat.mod_lt _ (by decide)
  obtain ⟨r, s₁, hc, hrest⟩ := loadSegment_cases hr
  by_cases hlt : ph.pVa.toNat < addW ph.pVa.toNat ph.pFilesz.toNat
  · obtain ⟨hg, hend⟩ := copyLoop_good (Nat.mod_lt _ (by decide)) hin hlt hnil hc
    rcases hrest with ⟨-, -, rfl⟩ | ⟨page, start, la, rfl, hb⟩
    · exact hg
    · obtain ⟨rfl, h₁, h₂, h₃, h₄⟩ := hend page start la rfl
      exact bssPart_good hmem (by omega) (hf.bssStart h hlt h₄ h₁ h₂ h₃) hg hb
  · obtain ⟨rfl, rfl⟩ := copyLoop_empty hlt hc
    rcases hrest with ⟨hr, -⟩ | ⟨page, start, la, hr, hb⟩
    · cases hr
    · cases hr
      refine bssPart_good hmem (Nat.lt_of_le_of_lt hin.le ph.pVa.isLt) ?_ hnil hb
      unfold BssStart
      rw [if_neg (Nat.not_lt.2 hin.le)]
      exact .inl hin

theorem copyLoop_log_step (page : Option Nat) (la src fuel : Nat) (hlt : start < stop) (ha : 0 < s.allocs) :
    ∃ t src', t.allocs + 1 = s.allocs ∧ segLogEnv.copyLoop stop s page start la src (fuel + 1) =
      segLogEnv.copyLoop stop t (some 0) (addW start (segChunk start la stop).2) (addW la pgSize) src' fuel := by
  have halloc : segLogEnv.pgdirAllocPage s la = some (some 0, { s with allocs := s.allocs - 1 }) :=
    if_neg (Nat.ne_of_gt ha)
  have hcopy (s : SegLog) (p off src size : Nat) :
      segLogEnv.memcpy s p off src size = some (s.emit (.write off size)) := rfl
  rw [SegEnv.copyLoop, if_pos hlt, halloc, Option.bind_eq_bind, Option.bind_some]
  generalize segChunk start la stop = c
  refine ⟨SegLog.emit { s with allocs := s.allocs - 1 } (.write c.1 c.2), addW src c.2, ?_, ?_⟩
  · exact Nat.sub_add_cancel ha
  · dsimp only
    rw [hcopy, Option.bind_eq_bind, Option.bind_some]

/-- With enough allocations, the file loop does all the pages from `la` to the one where the part ends. -/
theorem copyLoop_log (hin : InPage start la) (hlt : start < stop) (hs : stop + pgSize ≤ 2 ^ 64)
    (h₁ : la + pgSize * k < stop) (h₂ : stop < la + pgSize * (k + 1)) (ha : k < s.allocs)
    (hf : k + 1 < fuel) : ∃ p t, segLogEnv.copyLoop stop s page start la src fuel =
      some (some (some p, stop, la + pgSize * (k + 1)), t) := by
  have hstop : stop < 2 ^ 64 := Nat.lt_of_lt_of_le (Nat.lt_add_of_pos_right (by decide)) hs
  have hnext := segChunk_next hin hlt hstop
  induction k generalizing s page start la src fuel with
  | zero =>
    obtain ⟨fuel, rfl⟩ := Nat.exists_eq_add_of_le' hf
    obtain ⟨t, src', -, hstep⟩ := copyLoop_log_step page la src (fuel + 1) hlt ha
    rw [Nat.mul_zero, Nat.add_zero] at h₁
    rw [Nat.zero_add, Nat.mul_one] at h₂ ⊢
    rcases hnext with ⟨-, -, hle⟩ | ⟨heq, hla, -⟩
    · omega
    · rw [heq, hla] at hstep
      refine ⟨0, t, hstep.trans ?_⟩
      rw [SegEnv.copyLoop, if_neg (Nat.lt_irrefl _)]
  | succ k ih =>
    obtain ⟨fuel, rfl⟩ := Nat.exists_eq_add_of_le' hf
    obtain ⟨t, src', hallocs, hstep⟩ :=
      copyLoop_log_step page la src (fuel + (k + 1) + 1) hlt (Nat.zero_lt_of_lt ha)
    have hpg : pgSize ≤ pgSize * (k + 1) := Nat.le_mul_of_pos_right _ (Nat.succ_pos k)
    rcases hnext with ⟨hin', heq, -⟩ | ⟨-, -, hend⟩
    · have hla : addW la pgSize = la + pgSize := Nat.mod_eq_of_lt (by omega)
      rw [heq, hla] at hstep hin'
      have hlt' : la + pgSize < stop := by omega
      have hsum (j : Nat) : la + pgSize + pgSize * j = la + pgSize * (j + 1) := by
        rw [Nat.mul_add_one]
        omega
      have h₁' : la + pgSize + pgSize * k < stop := by
        rw [hsum]
        exact h₁
      have h₂' : stop < la + pgSize + pgSize * (k + 1) := by
        rw [hsum]
        exact h₂
      have hk : k < t.allocs := by omega
      have hnext' := segChunk_next hin' hlt' hstop
      have hrun : ∃ p u, segLogEnv.copyLoop stop t (some 0) (la + pgSize) (la + pgSize) src'
          (fuel + (k + 1) + 1) = some (some (some p, stop, la + pgSize + pgSize * (k + 1)), u) :=
        ih hin' hlt' h₁' h₂' hk (by omega) hnext'
      obtain ⟨p, u, hrun⟩ := hrun
      rw [hsum] at hrun
      exact ⟨p, u, hstep.trans hrun⟩
    · omega

/-- Where the area ends before `start` in an earlier page, the size of the rest of the page wraps. -/
theorem bssChunk_wrap (h₁ : start < la) (h₂ : la < start + pgSize) (hl : la < 2 ^ 64) (hs : stop < start)
    (hfar : pgSize ≤ stop) (hlow : start + pgSize ≤ 2 ^ 64) :
    bssChunk start la stop = (start + pgSize - la, 2 ^ 64 - (start - stop)) := by
  have hla : stop < la := by omega
  unfold bssChunk
  dsimp only
  rw [if_pos hla]
  unfold addW subW
  unfold pgSize at *
  rw [Prod.mk.injEq]
  omega

/-- The bss part then writes beyond the page. -/
theorem bssPart_bad (h₁ : start < la) (h₂ : la < start + pgSize) (hl : la < 2 ^ 64) (hs : stop < start)
    (hfar : pgSize ≤ stop) (hlow : start + pgSize ≤ 2 ^ 64) (s : SegLog) (p : Nat) :
    ∃ t, segLogEnv.bssPart stop s (some p) start la = some (true, t) ∧ ¬ t.AllGood := by
  have hmem (s : SegLog) (p off size : Nat) :
      segLogEnv.memset s p off size = some (s.emit (.write off size)) := rfl
  have hlog (s : SegLog) (b : Bool) : segLogEnv.assert s b = some (s.emit (.assert b)) := rfl
  have hend : addW start (2 ^ 64 - (start - stop)) = stop := by
    unfold addW
    omega
  unfold SegEnv.bssPart
  rw [if_pos h₁, if_neg (Nat.ne_of_gt hs), bssChunk_wrap h₁ h₂ hl hs hfar hlow]
  dsimp only
  rw [hend, Option.bind_eq_bind, Option.bind_some, hmem, Option.bind_eq_bind, Option.bind_some, hlog,
    Option.bind_some]
  refine ⟨_, zeroLoop_done (Nat.lt_irrefl _), fun hg => ?_⟩
  have hw : SegEvent.Good (.write (start + pgSize - la) (2 ^ 64 - (start - stop))) := by
    apply hg
    exact List.mem_append_left _ (List.mem_append_right _ (List.mem_singleton_self _))
  have hsize := hw.2.1
  omega

/-- What a segment that does not fit looks like. -/
theorem ProgHdr.Accepted.unfit (h : ProgHdr.Accepted ph) (hf : ¬ ph.Fits) :
    ∃ stop mem, addW ph.pVa.toNat ph.pFilesz.toNat = stop ∧ addW ph.pVa.toNat ph.pMemsz.toNat = mem ∧
      ph.pVa.toNat < stop ∧ mem < ph.pVa.toNat ∧ pgSize ≤ mem ∧ stop % pgSize ≠ 0 ∧
        stop + pgSize ≤ 2 ^ 64 := by
  have hva := ph.pVa.isLt
  have hsz := ph.pFilesz.isLt
  have hbase := h.2.1
  refine ⟨_, _, rfl, rfl, ?_⟩
  rcases h.cases with hlt | ⟨hwrap, hmem, hpage⟩
  · exact absurd (.inl hlt) hf
  · simp only [ProgHdr.Fits, not_or] at hf
    obtain ⟨-, h₁, h₂, h₃⟩ := hf
    have hstop : addW ph.pVa.toNat ph.pFilesz.toNat = ph.pVa.toNat + ph.pFilesz.toNat := by
      unfold addW pgSize at *
      omega
    rw [hstop]
    unfold userBase at hbase
    unfold pgSize at *
    exact ⟨by omega, hmem, by omega, h₃, by omega⟩

theorem segment_bad (h : ProgHdr.Accepted ph) (hf : ¬ ph.Fits) (binary : Nat) :
    ∃ allocs b t, segLogEnv.loadSegment ⟨allocs, []⟩ binary ph = some (b, t) ∧ ¬ t.AllGood := by
  have hin := inPage_roundDown ph.pVa.toNat
  obtain ⟨stop, mem, hstop, hmem, h₁, h₂, h₃, h₄, h₅⟩ := h.unfit hf
  obtain ⟨k, hk⟩ : ∃ k, (stop - roundDown ph.pVa.toNat pgSize) / pgSize = k := ⟨_, rfl⟩
  obtain ⟨hmod, hle, hlt⟩ := hin
  have hk₁ : roundDown ph.pVa.toNat pgSize + pgSize * k < stop ∧
      stop < roundDown ph.pVa.toNat pgSize + pgSize * (k + 1) ∧ k < 2 ^ 52 - 1 ∧
      roundDown ph.pVa.toNat pgSize + pgSize * (k + 1) < stop + pgSize ∧
      roundDown ph.pVa.toNat pgSize + pgSize * (k + 1) < 2 ^ 64 := by
    unfold pgSize at *
    omega
  obtain ⟨hk₁, hk₂, hk₃, hk₄, hk₅⟩ := hk₁
  have hrounds : k + 1 < SegEnv.rounds := by
    unfold SegEnv.rounds
    omega
  have hallocs : k < 2 ^ 52 := by omega
  have hcopy : ∃ p s, segLogEnv.copyLoop stop ⟨2 ^ 52, []⟩ none ph.pVa.toNat (roundDown ph.pVa.toNat pgSize)
      (addW binary ph.pOffset.toNat) SegEnv.rounds =
        some (some (some p, stop, roundDown ph.pVa.toNat pgSize + pgSize * (k + 1)), s) :=
    copyLoop_log ⟨hmod, hle, hlt⟩ h₁ h₅ hk₁ hk₂ hallocs hrounds
  obtain ⟨p, s, hcopy⟩ := hcopy
  obtain ⟨t, hbss, hbad⟩ := bssPart_bad hk₂ hk₄ hk₅ (Nat.lt_trans h₂ h₁) h₃ h₅ s p
  refine ⟨2 ^ 52, true, t, ?_, hbad⟩
  rw [← hstop] at hcopy
  rw [loadSegment_copied hcopy, hstop, hmem]
  exact hbss

/-- On a segment that `load_icode` accepts, every `memcpy` and `memset` stays in its page and the assertion
holds, however many allocations succeed, exactly if the segment fits. -/
theorem segment_good_iff (h : ph.Accepted) : (∀ binary allocs b t,
    segLogEnv.loadSegment ⟨allocs, []⟩ binary ph = some (b, t) → ∀ e ∈ t.events, e.Good) ↔ ph.Fits := by
  constructor
  · intro hall
    by_contra hf
    obtain ⟨allocs, b, t, hr, hbad⟩ := segment_bad h hf 0
    exact hbad (hall 0 allocs b t hr)
  · exact fun hf _ _ _ _ hr => segment_good h hf hr

/-- A segment of `0x100` bytes whose end in memory wraps and comes to lie before its start. -/
def wrapSegment : ProgHdr := ⟨elfPtLoad, elfPfR ||| elfPfW, 0x1000, 0x200800, 0x100, 0xFFFFFFFFFFFFFC00⟩

theorem segment_good_iff_wrap : (∀ binary allocs b t,
    segLogEnv.loadSegment ⟨allocs, []⟩ binary wrapSegment = some (b, t) → ∀ e ∈ t.events, e.Good) ↔
      wrapSegment.Fits :=
  segment_good_iff (by decide)

theorem segment_overrun : wrapSegment.Accepted ∧
    segLogEnv.loadSegment ⟨1, []⟩ 0 wrapSegment = some (true,
      ⟨0, [.write 0x800 0x100, .write 0x900 (2 ^ 64 - 0x500), .assert true]⟩) ∧
    ¬ SegEvent.Good (.write 0x900 (2 ^ 64 - 0x500)) := by
  refine ⟨by decide, ?_, by decide⟩
  decide +kernel

end UCore
