import UCore.Mm.PageInsert

namespace UCore
set_option autoImplicit true
open Function (update)

/-- The byte at an address of the lower half, as the directory `d` maps it. -/
def Mem.userByte {A : PhysSys} (m : Mem A) (d a : Nat) : Option (BitVec 8) :=
  if pteValid (m.pteAt d (a / pgSize)) then
    some ((m.frame (ptePpn (m.pteAt d (a / pgSize)))).byte (a % pgSize))
  else none

/-- The directory `d`, which was empty, has got pages in new frames: those with a permission in `P`. Of
their bytes, the ones in `B` are known. -/
structure Filled {A : PhysSys} (d : Nat) (P : Nat → Option (BitVec 32)) (B : Nat → Option (BitVec 8))
    (m m' : Mem A) (role role' : Nat → Role) : Prop extends Adds d m m' role role' where
  rest : ∀ v < userVpn, P v = none → m'.pteAt d v = 0
  page : ∀ v < userVpn, ∀ perm, P v = some perm → ∃ t, m'.pteAt d v = pteCreate t (pteV ||| perm) ∧
    ptePpn (m'.pteAt d v) = t ∧ role t = .free ∧ m'.ref t = 1
  inj : ∀ v < userVpn, ∀ w < userVpn, pteValid (m'.pteAt d v) → pteValid (m'.pteAt d w) →
    ptePpn (m'.pteAt d v) = ptePpn (m'.pteAt d w) → v = w
  byte : ∀ a b, a / pgSize < userVpn → B a = some b → m'.userByte d a = some b

/-- The pages of the addresses from `va` up to `stop` get a permission. -/
def mapPages (P : Nat → Option (BitVec 32)) (perm : BitVec 32) (va stop : Nat) : Nat → Option (BitVec 32) :=
  fun v => if va < stop ∧ va / pgSize ≤ v ∧ v * pgSize < stop then some perm else P v

/-- The bytes from `va` up to `stop` become known. -/
def knowBytes (B : Nat → Option (BitVec 8)) (src : Nat → BitVec 8) (va stop : Nat) : Nat → Option (BitVec 8) :=
  fun a => if va ≤ a ∧ a < stop then some (src (a - va)) else B a

section
variable {A : PhysSys} {m m' m'' : Mem A} {role role' role'' : Nat → Role} {P P' : Nat → Option (BitVec 32)}
  {B B' : Nat → Option (BitVec 8)}

theorem Filled.init (h : Paged m role) (he : ∀ v < userVpn, m.pteAt d v = 0) :
    Filled d (fun _ => none) (fun _ => none) m m role role where
  toAdds := .refl d h
  rest v hv _ := he v hv
  page _ _ _ hp := by cases hp
  inj v hv _ _ hn := by
    rw [he v hv] at hn
    cases hn
  byte _ _ _ hb := by cases hb

theorem Filled.root (h : Filled d P B m m' role role') (hd : role d = .node d []) : role' d = .node d [] :=
  (h.keeps d (by rw [hd]; simp)).trans hd

theorem Filled.valid (h : Filled d P B m m' role role') (hv : v < userVpn) :
    pteValid (m'.pteAt d v) = (P v).isSome := by
  cases hp : P v with
  | none =>
    rw [h.rest v hv hp]
    rfl
  | some perm =>
    obtain ⟨t, he, -⟩ := h.page v hv perm hp
    rw [he, pteValid_create]
    rfl

theorem Filled.leaf (h : Filled d P B m m' role role') (hd : role d = .node d []) (hv : v < userVpn)
    (hn : pteValid (m'.pteAt d v)) : role' (ptePpn (m'.pteAt d v)) = .leaf :=
  h.paged.mapped (h.root hd) hv hn

theorem userByte_eq_some {b : BitVec 8} : m.userByte d a = some b ↔ pteValid (m.pteAt d (a / pgSize)) ∧
    (m.frame (ptePpn (m.pteAt d (a / pgSize)))).byte (a % pgSize) = b := by
  unfold Mem.userByte
  split
  · rename_i hv
    simp [hv]
  · rename_i hv
    simp [hv]

/-- What is added to the tree without new mappings leaves the pages as they are. -/
theorem Filled.adds (h : Filled d P B m m' role role') (ha : Adds d m' m'' role' role'')
    (hd : role d = .node d []) (hsame : ∀ v < userVpn, m''.pteAt d v = m'.pteAt d v) :
    Filled d P B m m'' role role'' where
  toAdds := h.toAdds.trans ha
  rest v hv hp := (hsame v hv).trans (h.rest v hv hp)
  page v hv perm hp := by
    obtain ⟨t, he, ht, hf, hr⟩ := h.page v hv perm hp
    have hleaf := h.leaf hd hv (by rw [he, pteValid_create])
    rw [ht] at hleaf
    rw [hsame v hv]
    exact ⟨t, he, ht, hf, (ha.ref t (by rw [hleaf]; simp)).trans hr⟩
  inj v hv w hw := by
    rw [hsame v hv, hsame w hw]
    exact h.inj v hv w hw
  byte a b hv hb := by
    have hold := h.byte a b hv hb
    rw [userByte_eq_some] at hold ⊢
    have hleaf := h.leaf hd hv hold.1
    rw [hsame _ hv, ha.frame _ (by rw [hleaf]; simp) (by rw [hleaf]; simp)]
    exact hold

/-- One more page. -/
theorem Filled.gains (h : Filled d P B m m' role role')
    (hg : Gains d v t (pteCreate t (pteV ||| perm)) m' m'' role' role'') (hd : role d = .node d [])
    (hv : v < userVpn) (hb : PermBits perm) (hn : P v = none) :
    Filled d (update P v (some perm)) B m m'' role role'' := by
  have ht : role'' t = .leaf := (hg.leaf t).2 (.inr rfl)
  have hbits : PermBits (pteV ||| perm) := hb.valid
  have hppn : ptePpn (pteCreate t (pteV ||| perm)) = t := hg.paged.ppn_create (by rw [ht]; simp) hbits
  have hfree : role t = .free := by
    by_contra hr
    rw [← h.keeps t hr] at hr
    exact hr hg.free
  have hne (w : Nat) (hw : w < userVpn) (hval : pteValid (m'.pteAt d w)) : ptePpn (m'.pteAt d w) ≠ t := by
    intro hc
    have hl := h.leaf hd hw hval
    rw [hc, hg.free] at hl
    cases hl
  have hold (w : Nat) (hw : w < userVpn) (hwv : w ≠ v) : m''.pteAt d w = m'.pteAt d w := hg.same w hw hwv
  refine ⟨h.toAdds.trans hg.adds, fun w hw hp => ?_, fun w hw q hp => ?_, fun w hw x hx hwn hxn heq => ?_,
    fun a b ha hk => ?_⟩
  · have hwv : w ≠ v := by
      rintro rfl
      rw [Function.update_self] at hp
      cases hp
    rw [Function.update_of_ne hwv] at hp
    rw [hold w hw hwv]
    exact h.rest w hw hp
  · by_cases hwv : w = v
    · subst hwv
      rw [Function.update_self] at hp
      cases hp
      rw [hg.new]
      exact ⟨t, rfl, hppn, hfree, hg.refOne⟩
    · rw [Function.update_of_ne hwv] at hp
      obtain ⟨x, he, hx, hf, hr⟩ := h.page w hw q hp
      have hleaf := h.leaf hd hw (by rw [he, pteValid_create])
      rw [hx] at hleaf
      rw [hold w hw hwv]
      exact ⟨x, he, hx, hf, (hg.ref x (by rw [hleaf]; simp)).trans hr⟩
  · by_cases hwv : w = v
    · by_cases hxv : x = v
      · rw [hwv, hxv]
      · subst hwv
        rw [hold x hx hxv] at hxn heq
        rw [hg.new, hppn] at heq
        exact absurd heq.symm (hne x hx hxn)
    · rw [hold w hw hwv] at hwn heq
      by_cases hxv : x = v
      · subst hxv
        rw [hg.new, hppn] at heq
        exact absurd heq (hne w hw hwn)
      · rw [hold x hx hxv] at hxn heq
        exact h.inj w hw x hx hwn hxn heq
  · have hbyte := h.byte a b ha hk
    rw [userByte_eq_some] at hbyte ⊢
    have hav : a / pgSize ≠ v := by
      intro hav
      rw [hav, h.rest v hv hn] at hbyte
      cases hbyte.1
    have hleaf := h.leaf hd ha hbyte.1
    rw [hold _ ha hav, hg.frame _ (by rw [hleaf]; simp) (by rw [hleaf]; simp)]
    exact hbyte

/-- Bytes of a page are written. -/
theorem Filled.fill (h : Filled d P B m m' role role') (hd : role d = .node d []) (hv : v < userVpn)
    (hp : P v = some perm) (ht : ptePpn (m'.pteAt d v) = t) (hs : off + size ≤ pgSize) (src : Nat → BitVec 8) :
    Filled d P (knowBytes B src (v * pgSize + off) (v * pgSize + off + size)) m
      (m'.setFrame t ((m'.frame t).fill off size src)) role role' := by
  have hval : pteValid (m'.pteAt d v) := by
    rw [h.valid hv, hp]
    rfl
  have hleaf : role' t = .leaf := by
    have hl := h.leaf hd hv hval
    rwa [ht] at hl
  have hfree : role t = .free := by
    obtain ⟨x, -, hx, hf, -⟩ := h.page v hv perm hp
    rwa [← ht, hx]
  have hframe (f : Nat) (hf : f ≠ t) :
      (m'.setFrame t ((m'.frame t).fill off size src)).frame f = m'.frame f := Function.update_of_ne hf ..
  have hnode (f c : Nat) (p : List Nat) (hf : role' f = .node c p) : f ≠ t := by
    rintro rfl
    rw [hleaf] at hf
    cases hf
  have hpaged : Paged (m'.setFrame t ((m'.frame t).fill off size src)) role' :=
    ⟨h.paged.tables.congr fun f c p hf => hframe f (hnode f c p hf), h.paged.free, h.paged.pool,
      h.paged.unused⟩
  have hsame (w : Nat) (hw : w < userVpn) :
      (m'.setFrame t ((m'.frame t).fill off size src)).pteAt d w = m'.pteAt d w :=
    h.paged.pteAt_congr hpaged (fun _ _ => Iff.rfl) (fun f p hf => hframe f (hnode f d p hf)) (h.root hd) hw
  refine ⟨⟨hpaged, h.swapInitOk, h.checkMm, h.keeps, h.fresh, fun f hf hn => ?_, fun i hi => ?_, h.ref, h.oom,
    fun w hw hn => ?_⟩, fun w hw hn => ?_, fun w hw q hq => ?_, fun w hw x hx => ?_, fun a b ha hk => ?_⟩
  · have hft : f ≠ t := by
      rintro rfl
      exact hf hfree
    rw [hframe f hft]
    exact h.frame f hf hn
  · rw [hframe d (hnode d d [] (h.root hd))]
    exact h.high i hi
  · rw [hsame w hw]
    exact h.pte w hw hn
  · rw [hsame w hw]
    exact h.rest w hw hn
  · rw [hsame w hw]
    exact h.page w hw q hq
  · rw [hsame w hw, hsame x hx]
    exact h.inj w hw x hx
  · rw [userByte_eq_some, hsame _ ha]
    unfold knowBytes at hk
    by_cases hav : a / pgSize = v
    · rw [hav, ht]
      refine ⟨hval, ?_⟩
      have hself : (m'.setFrame t ((m'.frame t).fill off size src)).frame t =
        (m'.frame t).fill off size src := Function.update_self ..
      rw [hself, Words.byte_fill]
      have hmod : v * pgSize + a % pgSize = a := by
        rw [← hav, Nat.mul_comm]
        exact Nat.div_add_mod a pgSize
      have hiff : (off ≤ a % pgSize ∧ a % pgSize < off + size) ↔
          (v * pgSize + off ≤ a ∧ a < v * pgSize + off + size) := by omega
      by_cases hin : v * pgSize + off ≤ a ∧ a < v * pgSize + off + size
      · rw [if_pos hin] at hk
        rw [if_pos (hiff.2 hin)]
        rw [show a - (v * pgSize + off) = a % pgSize - off by omega] at hk
        exact Option.some.inj hk
      · rw [if_neg hin] at hk
        rw [if_neg fun hc => hin (hiff.1 hc)]
        have hold := (userByte_eq_some.1 (h.byte a b ha hk)).2
        rwa [hav, ht] at hold
    · have hout : ¬ (v * pgSize + off ≤ a ∧ a < v * pgSize + off + size) := by
        unfold pgSize at *
        omega
      rw [if_neg hout] at hk
      have hold := userByte_eq_some.1 (h.byte a b ha hk)
      have hft : ptePpn (m'.pteAt d (a / pgSize)) ≠ t := by
        rw [← ht]
        exact fun hc => hav (h.inj _ ha v hv hold.1 hval hc)
      rw [hframe _ hft]
      exact hold

theorem Filled.congr (h : Filled d P B m m' role role') (hp : ∀ v < userVpn, P' v = P v)
    (hb : ∀ a, a / pgSize < userVpn → B' a = B a) : Filled d P' B' m m' role role' where
  toAdds := h.toAdds
  rest v hv hn := h.rest v hv ((hp v hv).symm.trans hn)
  page v hv perm hn := h.page v hv perm ((hp v hv).symm.trans hn)
  inj := h.inj
  byte a b ha hk := h.byte a b ha ((hb a ha).symm.trans hk)

end

section
variable {P : Nat → Option (BitVec 32)} {B : Nat → Option (BitVec 8)}

theorem mapPages_empty (h : ¬ va < stop) : mapPages P perm va stop = P := by
  funext v
  exact if_neg fun hc => h hc.1

theorem knowBytes_empty (h : ¬ va < stop) : knowBytes B src va stop = B := by
  funext a
  unfold knowBytes
  rw [if_neg]
  omega

/-- The page where the next piece begins is not among the pages so far. -/
theorem mapPages_next (hla : la % pgSize = 0) (h : start = va ∨ start = la) :
    mapPages P perm va start (la / pgSize) = P (la / pgSize) := by
  apply if_neg
  unfold pgSize at *
  omega

/-- A piece of the page at `la`. -/
theorem mapPages_step (hla : la % pgSize = 0) (hle : la ≤ start) (hva : va ≤ start)
    (hpos : start < stop) (hs : stop ≤ la + pgSize) :
    update (mapPages P perm va start) (la / pgSize) (some perm) = mapPages P perm va stop := by
  funext v
  unfold mapPages
  by_cases hv : v = la / pgSize
  · rw [hv, Function.update_self, if_pos]
    unfold pgSize at *
    omega
  · rw [Function.update_of_ne hv]
    have hiff : (va < start ∧ va / pgSize ≤ v ∧ v * pgSize < start) ↔
        (va < stop ∧ va / pgSize ≤ v ∧ v * pgSize < stop) := by
      unfold pgSize at *
      omega
    by_cases hc : va < start ∧ va / pgSize ≤ v ∧ v * pgSize < start
    · rw [if_pos hc, if_pos (hiff.1 hc)]
    · rw [if_neg hc, if_neg fun hc' => hc (hiff.2 hc')]

/-- A piece of the last page that has been mapped. -/
theorem mapPages_same (hla : la % pgSize = 0) (hle : la < start) (hva : va < start) (hpos : start ≤ stop)
    (hs : stop ≤ la + pgSize) : mapPages P perm va stop = mapPages P perm va start := by
  funext v
  unfold mapPages
  have hiff : (va < start ∧ va / pgSize ≤ v ∧ v * pgSize < start) ↔
      (va < stop ∧ va / pgSize ≤ v ∧ v * pgSize < stop) := by
    unfold pgSize at *
    omega
  by_cases hc : va < start ∧ va / pgSize ≤ v ∧ v * pgSize < start
  · rw [if_pos hc, if_pos (hiff.1 hc)]
  · rw [if_neg hc, if_neg fun hc' => hc (hiff.2 hc')]

theorem knowBytes_step (hva : va ≤ start) (hs : start ≤ stop) (hsrc : ∀ i < stop - start, src i = g (start - va + i)) :
    knowBytes (knowBytes B g va start) src start stop = knowBytes B g va stop := by
  funext a
  unfold knowBytes
  by_cases h₁ : start ≤ a ∧ a < stop
  · rw [if_pos h₁, if_pos ⟨by omega, h₁.2⟩, hsrc _ (by omega)]
    congr 2
    omega
  · rw [if_neg h₁]
    by_cases h₂ : va ≤ a ∧ a < start
    · rw [if_pos h₂, if_pos ⟨h₂.1, by omega⟩]
    · rw [if_neg h₂, if_neg]
      omega

end

end UCore
