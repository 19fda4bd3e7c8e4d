import UCore.Mm.MmMap
import UCore.Process.SegFilled

namespace UCore
set_option autoImplicit true
open Function (update)

namespace ProgHdr

def IsLoad (ph : ProgHdr) : Prop := ph.pType = elfPtLoad

instance : Decidable (IsLoad ph) := inferInstanceAs (Decidable (_ = _))

/-- The page number of a byte of the segment. -/
def Page (ph : ProgHdr) (v : Nat) : Prop :=
  0 < ph.pMemsz.toNat ∧ ph.pVa.toNat / pgSize ≤ v ∧ v * pgSize < ph.pVa.toNat + ph.pMemsz.toNat

instance : Decidable (Page ph v) := inferInstanceAs (Decidable (_ ∧ _))

/-- The flags of the pages of the segment. -/
def perm (ph : ProgHdr) : BitVec 32 := Mem.segPerm (Mem.segFlags ph.pFlags)

/-- The area for the segment. -/
def area (ph : ProgHdr) : Nat × Nat × BitVec 32 :=
  (roundDown ph.pVa.toNat pgSize, roundUp (addW ph.pVa.toNat ph.pMemsz.toNat) pgSize, Mem.segFlags ph.pFlags)

/-- The segment does not wrap in the address space, and its file part lies in an image of `len` bytes. -/
structure Inside (ph : ProgHdr) (len : Nat) : Prop where
  wrap : ph.pVa.toNat + ph.pMemsz.toNat < 2 ^ 64
  file : ph.pOffset.toNat + ph.pFilesz.toNat ≤ len

instance : Decidable (Inside ph len) :=
  decidable_of_iff (ph.pVa.toNat + ph.pMemsz.toNat < 2 ^ 64 ∧ ph.pOffset.toNat + ph.pFilesz.toNat ≤ len)
    ⟨fun h => ⟨h.1, h.2⟩, fun h => ⟨h.1, h.2⟩⟩

end ProgHdr

/-- The pages `P` are those of the segments `done`. -/
def SegPages (done : List ProgHdr) (P : Nat → Option (BitVec 32)) : Prop :=
  ∀ v perm, P v = some perm ↔ ∃ ph ∈ done, ph.IsLoad ∧ ph.Page v ∧ ph.perm = perm

/-- The bytes of the segments `done` are known. -/
def SegBytes {A : PhysSys} (m : Mem A) (binary : Nat) (done : List ProgHdr) (B : Nat → Option (BitVec 8)) : Prop :=
  ∀ ph ∈ done, ph.IsLoad → ∀ i < ph.pMemsz.toNat, B (ph.pVa.toNat + i) = some (ph.byte m binary i)

/-- The segments `done` have been loaded since the memory `m`, into the directory `d` of an address space. -/
structure Loading {A : PhysSys} (mm d binary : Nat) (m : Mem A) (role : Nat → Role) (done : List ProgHdr)
    (s : Mem A) : Prop where
  filled : ∃ role' P B, Filled d P B m s role role' ∧ SegPages done P ∧ SegBytes m binary done B
  plain : s.Plain
  pgdir : (s.mms mm).pgdir = some d
  list : VmaList (s.mms mm).mmapList
  cache : CacheIn (s.mms mm)
  areas : ((s.mms mm).mmapList.map Vma.area).Perm ((done.filter fun ph => ph.IsLoad).map ProgHdr.area)
  top : ∀ ph ∈ done, ph.IsLoad → ph.pVa.toNat + ph.pMemsz.toNat ≤ userTop

section
variable {A : PhysSys} {m s t : Mem A} {role role' : Nat → Role} {P : Nat → Option (BitVec 32)}
  {B : Nat → Option (BitVec 8)}

theorem permBits_segPerm (flags : BitVec 32) : PermBits (Mem.segPerm flags) := by
  unfold Mem.segPerm
  split <;> split <;> split <;> decide

/-- What rounds to user addresses without wrapping is below the top. -/
theorem le_userTop (h : UserAccess (roundDown va pgSize) (roundUp (addW va size) pgSize))
    (hw : va + size < 2 ^ 64) : va + size ≤ userTop ∧ va + size ≤ roundUp (addW va size) pgSize := by
  obtain ⟨h₁, h₂, h₃⟩ := h
  have hadd : addW va size = va + size := Nat.mod_eq_of_lt hw
  rw [hadd] at h₂ h₃ ⊢
  unfold roundUp roundDown userBase userTop at *
  unfold pgSize at *
  omega

theorem kload_congr (h : ∀ b, a ≤ b → b < a + n → s.kbyte b = m.kbyte b) (hw : a + n ≤ 2 ^ 64) :
    s.kload a n = m.kload a n := by
  induction n generalizing a with
  | zero => rfl
  | succ n ih =>
    have hb := h a (Nat.le_refl _) (by omega)
    have hrest : s.kload (addW a 1) n = m.kload (addW a 1) n := by
      cases n with
      | zero => rfl
      | succ n =>
        have hadd : addW a 1 = a + 1 := Nat.mod_eq_of_lt (by omega)
        rw [hadd]
        exact ih (fun b h₁ h₂ => h b (by omega) (by omega)) (by omega)
    unfold Mem.kload
    rw [hb, hrest]

theorem progHdr_congr (h : ∀ b, a ≤ b → b < a + progHdrSize → s.kbyte b = m.kbyte b)
    (hw : a + progHdrSize ≤ 2 ^ 64) : s.progHdr a = m.progHdr a := by
  unfold progHdrSize at *
  have hload (k n : Nat) (hk : k + n ≤ 56) (hn : 0 < n) : s.kload (addW a k) n = m.kload (addW a k) n := by
    have hadd : addW a k = a + k := Nat.mod_eq_of_lt (by omega)
    rw [hadd]
    exact kload_congr (fun b h₁ h₂ => h b (by omega) (by omega)) (by omega)
  have h₀ : s.kload a 4 = m.kload a 4 := kload_congr (fun b h₁ h₂ => h b (by omega) (by omega)) (by omega)
  unfold Mem.progHdr
  rw [h₀, hload 4 4 (by decide) (by decide), hload 8 8 (by decide) (by decide),
    hload 16 8 (by decide) (by decide), hload 32 8 (by decide) (by decide), hload 40 8 (by decide) (by decide)]

theorem SegPages.snoc (h : SegPages done P) (hl : ph.IsLoad) (hn : ∀ v, ph.Page v → P v = none) :
    SegPages (done ++ [ph]) (mapPages P ph.perm ph.pVa.toNat (ph.pVa.toNat + ph.pMemsz.toNat)) := by
  intro v perm
  have hcond : (ph.pVa.toNat < ph.pVa.toNat + ph.pMemsz.toNat ∧ ph.pVa.toNat / pgSize ≤ v ∧
      v * pgSize < ph.pVa.toNat + ph.pMemsz.toNat) ↔ ph.Page v := by
    rw [Nat.lt_add_right_iff_pos]
    rfl
  unfold mapPages
  by_cases hp : ph.Page v
  · rw [if_pos (hcond.2 hp)]
    constructor
    · intro he
      exact ⟨ph, by simp, hl, hp, Option.some.inj he⟩
    · rintro ⟨x, hx, hxl, hxp, rfl⟩
      rcases List.mem_append.1 hx with hx | hx
      · have hsome := (h v x.perm).2 ⟨x, hx, hxl, hxp, rfl⟩
        rw [hn v hp] at hsome
        cases hsome
      · rw [List.mem_singleton.1 hx]
  · rw [if_neg fun hc => hp (hcond.1 hc), h v perm]
    constructor
    · rintro ⟨x, hx, hrest⟩
      exact ⟨x, List.mem_append_left _ hx, hrest⟩
    · rintro ⟨x, hx, hxl, hxp, he⟩
      rcases List.mem_append.1 hx with hx | hx
      · exact ⟨x, hx, hxl, hxp, he⟩
      · rw [List.mem_singleton.1 hx] at hxp
        exact absurd hxp hp

theorem SegPages.skip (h : SegPages done P) (hl : ¬ ph.IsLoad) : SegPages (done ++ [ph]) P := by
  intro v perm
  rw [h v perm]
  constructor
  · rintro ⟨x, hx, hrest⟩
    exact ⟨x, List.mem_append_left _ hx, hrest⟩
  · rintro ⟨x, hx, hxl, hrest⟩
    rcases List.mem_append.1 hx with hx | hx
    · exact ⟨x, hx, hxl, hrest⟩
    · rw [List.mem_singleton.1 hx] at hxl
      exact absurd hxl hl

/-- A byte of a segment is in one of its pages. -/
theorem ProgHdr.page_byte (ph : ProgHdr) (hi : i < ph.pMemsz.toNat) : ph.Page ((ph.pVa.toNat + i) / pgSize) := by
  unfold ProgHdr.Page pgSize
  omega

theorem SegBytes.snoc (h : SegBytes m binary done B) (hp : SegPages done P) (hn : ∀ v, ph.Page v → P v = none) :
    SegBytes m binary (done ++ [ph])
      (knowBytes B (ph.byte m binary) ph.pVa.toNat (ph.pVa.toNat + ph.pMemsz.toNat)) := by
  intro x hx hxl i hi
  unfold knowBytes
  rcases List.mem_append.1 hx with hx | hx
  · rw [if_neg, h x hx hxl i hi]
    rintro ⟨h₁, h₂⟩
    have hpage := ph.page_byte (i := x.pVa.toNat + i - ph.pVa.toNat) (by omega)
    rw [Nat.add_sub_cancel' h₁] at hpage
    have hsome := (hp _ x.perm).2 ⟨x, hx, hxl, x.page_byte hi, rfl⟩
    rw [hn _ hpage] at hsome
    cases hsome
  · obtain rfl := List.mem_singleton.1 hx
    rw [if_pos ⟨Nat.le_add_right .., Nat.add_lt_add_left hi _⟩, Nat.add_sub_cancel_left]

theorem SegBytes.skip (h : SegBytes m binary done B) (hl : ¬ ph.IsLoad) : SegBytes m binary (done ++ [ph]) B := by
  intro x hx hxl
  rcases List.mem_append.1 hx with hx | hx
  · exact h x hx hxl
  · rw [List.mem_singleton.1 hx] at hxl
    exact absurd hxl hl

theorem Loading.skip (h : Loading mm d binary m role done s) (hl : ¬ ph.IsLoad) :
    Loading mm d binary m role (done ++ [ph]) s where
  filled := by
    obtain ⟨role', P, B, hf, hp, hb⟩ := h.filled
    exact ⟨role', P, B, hf, hp.skip hl, hb.skip hl⟩
  plain := h.plain
  pgdir := h.pgdir
  list := h.list
  cache := h.cache
  areas := by
    rw [List.filter_append, List.filter_singleton, decide_eq_false hl, cond_false, List.append_nil]
    exact h.areas
  top x hx hxl := by
    rcases List.mem_append.1 hx with hx | hx
    · exact h.top x hx hxl
    · rw [List.mem_singleton.1 hx] at hxl
      exact absurd hxl hl

/-- The pages of a segment are in its area. -/
theorem ProgHdr.page_area (h : ProgHdr.Page ph v) (ht : ph.pVa.toNat + ph.pMemsz.toNat ≤ userTop) :
    ph.area.1 ≤ v * pgSize ∧ v * pgSize < ph.area.2.1 := by
  obtain ⟨-, h₁, h₂⟩ := h
  unfold userTop at ht
  have hadd : addW ph.pVa.toNat ph.pMemsz.toNat = ph.pVa.toNat + ph.pMemsz.toNat := Nat.mod_eq_of_lt (by omega)
  unfold ProgHdr.area roundUp roundDown
  rw [hadd]
  unfold pgSize at *
  dsimp only
  omega

/-- The pages of the segments are in the areas of the address space. -/
theorem Loading.covered (h : Loading mm d binary m role done s) (hx : ph ∈ done) (hl : ph.IsLoad)
    (hp : ph.Page v) : Covered (s.mms mm).mmapList v := by
  have hmem : ph.area ∈ (s.mms mm).mmapList.map Vma.area :=
    h.areas.mem_iff.2 (List.mem_map_of_mem (List.mem_filter.2 ⟨hx, decide_eq_true hl⟩))
  obtain ⟨vma, hv, heq⟩ := List.mem_map.1 hmem
  have hin := ProgHdr.page_area hp (h.top ph hx hl)
  rw [← heq] at hin
  exact ⟨vma, hv, hin⟩

/-- An area has been added since the segments `done` were loaded, and none of its pages is mapped. -/
structure AreaMapped {A : PhysSys} (mm d binary : Nat) (done : List ProgHdr) (start stop : Nat) (flags : BitVec 32)
    (m : Mem A) (role : Nat → Role) (s t : Mem A) : Prop where
  filled : ∃ role' P B, Filled d P B m t role role' ∧ SegPages done P ∧ SegBytes m binary done B ∧
    ∀ v, start ≤ v * pgSize → v * pgSize < stop → P v = none
  plain : t.Plain
  pgdir : (t.mms mm).pgdir = some d
  cache : CacheIn (t.mms mm)
  area : AreaAdded mm start stop flags s t

theorem Loading.mapped (h : Loading mm d binary m role done s) (hd : role d = .node d [])
    (hm : s.mmMap mm addr len flags = some (0, t)) :
    AreaMapped mm d binary done (roundDown addr pgSize) (roundUp (addW addr len) pgSize) flags m role s t := by
  obtain ⟨role₁, P, B, hf, hp, hb⟩ := h.filled
  obtain ⟨role₂, htook, hpgdir, hcache, hadd⟩ := mmMap_spec hf.paged h.list h.cache hm
  rw [if_pos rfl] at hadd
  have hf₁ := hf.adds (htook.adds d) hd fun v _ => pteAt_of_frame htook.frame d v
  refine ⟨⟨role₂, P, B, hf₁, hp, hb, fun v h₁ h₂ => ?_⟩, (htook.adds d).plain h.plain, hpgdir.trans h.pgdir, hcache, hadd⟩
  by_contra hne
  obtain ⟨perm, hperm⟩ := Option.ne_none_iff_exists'.1 hne
  obtain ⟨x, hx, hxl, hxp, -⟩ := (hp v perm).1 hperm
  exact hadd.apart (h.covered hx hxl hxp) ⟨h₁, h₂⟩

/-- The pages of a segment whose area has been added. -/
theorem AreaMapped.segment {ph : ProgHdr} (h : AreaMapped mm d binary done (roundDown ph.pVa.toNat pgSize)
      (roundUp (addW ph.pVa.toNat ph.pMemsz.toNat) pgSize) flags m role s t)
    (hw : ph.pVa.toNat + ph.pMemsz.toNat < 2 ^ 64) : ph.pVa.toNat + ph.pMemsz.toNat ≤ userTop ∧
      ∃ role' P B, Filled d P B m t role role' ∧ SegPages done P ∧ SegBytes m binary done B ∧
        ∀ v, ph.pVa.toNat / pgSize ≤ v → v * pgSize < ph.pVa.toNat + ph.pMemsz.toNat → P v = none := by
  obtain ⟨role', P, B, hf, hp, hb, hnone⟩ := h.filled
  obtain ⟨htop, hround⟩ := le_userTop h.area.access hw
  refine ⟨htop, role', P, B, hf, hp, hb, fun v h₁ h₂ => hnone v ?_ (Nat.lt_of_lt_of_le h₂ hround)⟩
  unfold roundDown pgSize at *
  omega

/-- `mm_map` for a segment, and what fills it. -/
theorem Loading.segment (h : Loading mm d binary m role done s) (hd : role d = .node d []) (hl : ph.IsLoad)
    (hsz : ph.pFilesz.toNat ≤ ph.pMemsz.toNat) (hw : ph.pVa.toNat + ph.pMemsz.toNat < 2 ^ 64)
    (himg : ∀ j < ph.pFilesz.toNat, KernUsed role d (addW (addW binary ph.pOffset.toNat) j))
    (hm : s.mmMap mm ph.pVa.toNat ph.pMemsz.toNat (Mem.segFlags ph.pFlags) = some (0, s₁))
    (hr : (Mem.segEnv d ph.perm).loadSegment s₁ binary ph = some (true, t)) :
    Loading mm d binary m role (done ++ [ph]) t := by
  have hmap := h.mapped hd hm
  obtain ⟨htop, role₂, P, B, hf₁, hp, hb, hn⟩ := hmap.segment hw
  have hseg := loadSegment_filled hf₁ hmap.plain hd (permBits_segPerm _) htop hsz hn himg hr
  rw [if_pos rfl] at hseg
  obtain ⟨role₃, hf₂⟩ := hseg.filled
  have hnone (v : Nat) (hv : ph.Page v) : P v = none := hn v hv.2.1 hv.2.2
  refine ⟨⟨role₃, _, _, hf₂, hp.snoc hl hnone, hb.snoc hp hnone⟩, hseg.vars.plain hmap.plain, ?_, ?_, ?_, ?_, ?_⟩
  · rw [hseg.vars.mms]
    exact hmap.pgdir
  · rw [hseg.vars.mms]
    exact hmap.area.list
  · rw [hseg.vars.mms]
    exact hmap.cache
  · rw [hseg.vars.mms, List.filter_append, List.filter_singleton, decide_eq_true hl, cond_true, List.map_append,
      List.map_singleton]
    refine hmap.area.perm.trans ?_
    refine (h.areas.cons _).trans ?_
    exact (List.perm_append_singleton _ _).symm
  · intro x hx hxl
    rcases List.mem_append.1 hx with hx | hx
    · exact h.top x hx hxl
    · rw [List.mem_singleton.1 hx]
      exact htop

/-- The program headers of an image of `len` bytes, and the frames where it is. -/
structure HdrTable {A : PhysSys} (m : Mem A) (role : Nat → Role) (d binary len off : Nat) (hdrs : List ProgHdr) :
    Prop where
  used : ∀ a, binary ≤ a → a < binary + len → KernUsed role d a
  bound : binary + len < 2 ^ 64
  fits : off + progHdrSize * hdrs.length ≤ len
  hdr : ∀ i ph, hdrs[i]? = some ph → m.progHdr (binary + (off + progHdrSize * i)) = some ph
  inside : ∀ ph ∈ hdrs, ph.IsLoad → ph.Inside len

theorem HdrTable.byte (h : HdrTable m role d binary len off hdrs) (ha : Adds d m s role role')
    (h₁ : binary ≤ a) (h₂ : a < binary + len) : s.kbyte a = m.kbyte a := ha.kbyte (h.used a h₁ h₂)

/-- The headers are read as they are in the image. -/
theorem HdrTable.read (h : HdrTable m role d binary len off hdrs) (ha : Adds d m s role role')
    (hi : hdrs[i]? = some ph) : s.progHdr (binary + (off + progHdrSize * i)) = some ph := by
  have hlen : i < hdrs.length := (List.getElem?_eq_some_iff.1 hi).1
  have hfits := h.fits
  have hbound := h.bound
  have hmul : progHdrSize * i + progHdrSize ≤ progHdrSize * hdrs.length := by
    rw [← Nat.mul_succ]
    exact Nat.mul_le_mul_left _ hlen
  rw [← h.hdr i ph hi]
  exact progHdr_congr (fun b h₁ h₂ => h.byte ha (by omega) (by omega)) (by omega)

theorem HdrTable.file_addr (h : HdrTable m role d binary len off hdrs) (hx : ph ∈ hdrs) (hl : ph.IsLoad)
    (hj : j < ph.pFilesz.toNat) :
    binary ≤ addW (addW binary ph.pOffset.toNat) j ∧ addW (addW binary ph.pOffset.toNat) j < binary + len := by
  have hfile := (h.inside ph hx hl).file
  have hbound := h.bound
  have hadd : addW (addW binary ph.pOffset.toNat) j = binary + (ph.pOffset.toNat + j) := by
    rw [addW_assoc]
    exact Nat.mod_eq_of_lt (by omega)
  rw [hadd]
  omega

theorem HdrTable.file (h : HdrTable m role d binary len off hdrs) (hx : ph ∈ hdrs) (hl : ph.IsLoad)
    (hj : j < ph.pFilesz.toNat) : KernUsed role d (addW (addW binary ph.pOffset.toNat) j) := by
  obtain ⟨h₁, h₂⟩ := h.file_addr hx hl hj
  exact h.used _ h₁ h₂

/-- A round of the loop over the headers reads the next one, and goes on to the one behind it. -/
theorem HdrTable.next {ph : ProgHdr} (h : HdrTable m role d binary len off (done ++ ph :: rest))
    (ha : Adds d m s role role') :
    binary + (off + progHdrSize * done.length) < binary + (off + progHdrSize * (done ++ ph :: rest).length) ∧
      s.progHdr (binary + (off + progHdrSize * done.length)) = some ph ∧
      addW (binary + (off + progHdrSize * done.length)) progHdrSize =
        binary + (off + progHdrSize * (done ++ [ph]).length) := by
  have hi : (done ++ ph :: rest)[done.length]? = some ph := by simp
  have hlen : done.length < (done ++ ph :: rest).length := (List.getElem?_eq_some_iff.1 hi).1
  have hfits := h.fits
  have hbound := h.bound
  have hmul : progHdrSize * done.length + progHdrSize ≤ progHdrSize * (done ++ ph :: rest).length := by
    rw [← Nat.mul_succ]
    exact Nat.mul_le_mul_left _ hlen
  have hpos : 0 < progHdrSize := by decide
  refine ⟨by omega, h.read ha hi, ?_⟩
  rw [List.length_append, List.length_singleton, Nat.mul_succ]
  unfold addW
  omega

/-- The loop over the program headers, when it ends with 0. -/
theorem loadSegments_filled (ht : HdrTable m role d binary len off (done ++ rest)) (hd : role d = .node d [])
    (h : Loading mm d binary m role done s)
    (hr : s.loadSegments mm binary (binary + (off + progHdrSize * (done ++ rest).length))
      (binary + (off + progHdrSize * done.length)) fuel = some (0, t)) :
    Loading mm d binary m role (done ++ rest) t := by
  induction rest generalizing done s fuel with
  | nil =>
    cases fuel with
    | zero => cases hr
    | succ fuel =>
      unfold Mem.loadSegments at hr
      rw [List.append_nil, if_neg (Nat.lt_irrefl _)] at hr
      cases hr
      rw [List.append_nil]
      exact h
  | cons ph rest ih =>
    cases fuel with
    | zero => cases hr
    | succ fuel =>
      have hx : ph ∈ done ++ ph :: rest := List.mem_append_right _ (List.mem_cons_self ..)
      have hlist : done ++ ph :: rest = (done ++ [ph]) ++ rest := by simp
      obtain ⟨role', P, B, hf, -⟩ := h.filled
      obtain ⟨hlt, hread, hnext⟩ := ht.next hf.toAdds
      unfold Mem.loadSegments at hr
      rw [if_pos hlt, hread, Option.bind_eq_bind, Option.bind_some, hnext] at hr
      rw [hlist] at ht hr ⊢
      split at hr
      · rename_i hl
        exact ih ht (h.skip hl) hr
      · rename_i hl
        replace hl : ph.IsLoad := not_not.1 hl
        split at hr
        · cases hr
        · rename_i hsz
          obtain ⟨⟨r, s₁⟩, hm, hr⟩ := Option.bind_eq_some_iff.1 hr
          dsimp only at hr
          split at hr
          · rename_i hne
            cases hr
            exact absurd rfl hne
          · rename_i hz
            obtain rfl : r = 0 := not_not.1 hz
            obtain ⟨d', hd', hr⟩ := Option.bind_eq_some_iff.1 hr
            rw [(h.mapped hd hm).pgdir] at hd'
            cases hd'
            obtain ⟨⟨b, s₂⟩, hseg, hr⟩ := Option.bind_eq_some_iff.1 hr
            cases b with
            | false => cases hr
            | true =>
              have hle : ph.pFilesz.toNat ≤ ph.pMemsz.toNat := BitVec.not_lt.1 hsz
              have hw := (ht.inside ph (hlist ▸ hx) hl).wrap
              exact ih ht (h.segment hd hl hle hw (fun j hj => ht.file (hlist ▸ hx) hl hj) hm hseg) hr

end

end UCore
