import UCore.Process.ProcSpec

namespace UCore
set_option autoImplicit true
open Function (update)

section
variable {S : MemSys} {k k' : Kernel S} {ps : List Nat} {kids : Nat → List Nat}

theorem setLinks_eq (hq : k.parent p = some q) :
    k.setLinks p = some { k with
      listLink := listAdd k.listLink .procList (.listLink p)
      yptr := backLink k.yptr p (k.cptr q)
      optr := update k.optr p (k.cptr q)
      cptr := update k.cptr q (some p)
      nrProcess := k.nrProcess + 1 } := by
  cases hc : k.cptr q with
  | none => simp [Kernel.setLinks, Kernel.setYptr, Kernel.setOptr, Kernel.setCptr, hq, hc, backLink]
  | some o => simp [Kernel.setLinks, Kernel.setYptr, Kernel.setOptr, Kernel.setCptr, hq, hc, backLink]

theorem removeLinks_first (hy : k.yptr p = none) (hq : k.parent p = some q) (ho : k.optr p ≠ some p) :
    k.removeLinks p = some { k with
      listLink := listDel k.listLink (.listLink p)
      yptr := backSkip k.yptr (k.yptr p) (k.optr p)
      cptr := update k.cptr q (k.optr p)
      nrProcess := k.nrProcess - 1 } := by
  cases hc : k.optr p with
  | none => simp [Kernel.removeLinks, Kernel.setCptr, hy, hq, hc, backSkip]
  | some o =>
    have hpo : p ≠ o := fun he => ho (hc.trans (congrArg some he.symm))
    simp [Kernel.removeLinks, Kernel.setYptr, Kernel.setCptr, hy, hq, hc, backSkip,
      Function.update_of_ne hpo]

theorem removeLinks_next (hy : k.yptr p = some y) (ho : k.optr p ≠ some p) :
    k.removeLinks p = some { k with
      listLink := listDel k.listLink (.listLink p)
      yptr := backSkip k.yptr (k.yptr p) (k.optr p)
      optr := update k.optr y (k.optr p)
      nrProcess := k.nrProcess - 1 } := by
  cases hc : k.optr p with
  | none => simp [Kernel.removeLinks, Kernel.setOptr, hy, hc, backSkip]
  | some o =>
    have hpo : p ≠ o := fun he => ho (hc.trans (congrArg some he.symm))
    simp [Kernel.removeLinks, Kernel.setYptr, Kernel.setOptr, hy, hc, backSkip,
      Function.update_of_ne hpo]

/-- The chains of two buckets have no link in common. -/
theorem bucket_disjoint {c d : List Nat} (hij : i ≠ j)
    (hc : ∀ p, p ∈ c ↔ p ∈ ps ∧ pidHashfn (k.pid p) = i)
    (hd : ∀ p, p ∈ d ↔ p ∈ ps ∧ pidHashfn (k.pid p) = j) :
    ∀ x ∈ HashEntry.bucket i :: c.map .hashLink, x ∉ HashEntry.bucket j :: d.map .hashLink := by
  intro x hx hm
  cases x with
  | bucket n =>
    simp only [List.mem_cons, List.mem_map, reduceCtorEq, and_false, exists_false, or_false,
      HashEntry.bucket.injEq] at hx hm
    exact hij (hx.symm.trans hm)
  | hashLink p =>
    simp only [List.mem_cons, List.mem_map, reduceCtorEq, false_or, HashEntry.hashLink.injEq,
      exists_eq_right] at hx hm
    exact hij (((hc p).1 hx).2.symm.trans ((hd p).1 hm).2)

/-- A new process enters both lists with the pid that `get_pid` gave. -/
theorem ProcTable.link (h : ProcTable k ps) (hp : p ∉ k.idleproc :: ps)
    (hlast : k.lastPid < maxPid) (hfree : ∀ q ∈ ps, k.pid q ≠ k.lastPid)
    (hn : k.nrProcess < maxProcess) (epid : k'.pid = update k.pid p k.lastPid)
    (ehash : k'.hashLink = listAdd k.hashLink (.bucket (pidHashfn k.lastPid)) (.hashLink p))
    (elist : k'.listLink = listAdd k.listLink .procList (.listLink p))
    (ecount : k'.nrProcess = k.nrProcess + 1) (elast : k'.lastPid = k.lastPid)
    (enext : k'.nextSafe = k.nextSafe) (eidle : k'.idleproc = k.idleproc) :
    ProcTable k' (p :: ps) := by
  have hps : p ∉ ps := fun hm => hp (List.mem_cons_of_mem _ hm)
  have hpid (q : Nat) (hq : q ≠ p) : k'.pid q = k.pid q := by
    rw [epid, Function.update_of_ne hq]
  have hold (q : Nat) (hq : q ∈ ps) : k'.pid q = k.pid q := hpid q (ne_of_mem_of_not_mem hq hps)
  have hself : k'.pid p = k.lastPid := by
    rw [epid, Function.update_self]
  constructor
  · rw [elist, List.map_cons]
    apply listAdd_head h.list
    simpa using hps
  · intro i hi
    rw [ehash]
    obtain ⟨d, hd, hdm⟩ := h.hash _ (pidHashfn_lt k.lastPid)
    have hpd : p ∉ d := fun hm => hps ((hdm p).1 hm).1
    by_cases hil : i = pidHashfn k.lastPid
    · subst hil
      refine ⟨p :: d, listAdd_head hd (by simpa using hpd), fun q => ?_⟩
      by_cases hqp : q = p
      · subst hqp
        simp [hself]
      · simp only [List.mem_cons, hqp, false_or, hdm, hpid q hqp]
    · obtain ⟨c, hc, hcm⟩ := h.hash i hi
      have hpc : p ∉ c := fun hm => hps ((hcm p).1 hm).1
      refine ⟨c, listAdd_other hd hc (bucket_disjoint (Ne.symm hil) hdm hcm) (by simpa using hpc),
        fun q => ?_⟩
      by_cases hqp : q = p
      · subst hqp
        simp only [hpc, hself, List.mem_cons, true_or, true_and, false_iff]
        exact Ne.symm hil
      · simp only [List.mem_cons, hqp, false_or, hcm, hpid q hqp]
  · intro q hq
    cases hq with
    | head =>
      rw [hself]
      exact ⟨h.last.1, hlast⟩
    | tail _ hq =>
      rw [hold q hq]
      exact h.pid_range q hq
  · intro q hq r hr
    cases hq with
    | head =>
      cases hr with
      | head => exact fun _ => rfl
      | tail _ hr =>
        rw [hself, hold r hr]
        exact fun he => absurd he.symm (hfree r hr)
    | tail _ hq =>
      cases hr with
      | head =>
        rw [hself, hold q hq]
        exact fun he => absurd he (hfree q hq)
      | tail _ hr =>
        rw [hold q hq, hold r hr]
        exact h.pid_inj q hq r hr
  · have := h.count
    rw [ecount, List.length_cons]
    omega
  · rw [ecount]
    exact Int.add_one_le_of_lt hn
  · rw [elast]
    exact h.last
  · rw [elast, enext]
    refine ⟨h.gap.1, fun q hq => ?_⟩
    cases hq with
    | head =>
      rw [hself]
      exact fun hc => Int.lt_irrefl _ hc.1
    | tail _ hq =>
      rw [hold q hq]
      exact h.gap.2 q hq
  · rw [eidle]
    intro hm
    cases hm with
    | head => exact hp (List.mem_cons_self ..)
    | tail _ hm => exact h.idle hm

theorem mem_erase_mid {p q : Nat} {xs ys : List Nat} (hp : p ∉ xs ++ ys) :
    q ∈ xs ++ ys ↔ q ∈ xs ++ p :: ys ∧ q ≠ p := by
  constructor
  · intro hq
    refine ⟨?_, ne_of_mem_of_not_mem hq hp⟩
    simp only [List.mem_append, List.mem_cons] at hq ⊢
    tauto
  · rintro ⟨hq, hqp⟩
    simp only [List.mem_append, List.mem_cons, hqp, false_or] at hq ⊢
    exact hq

theorem ProcTable.unlink (h : ProcTable k (xs ++ p :: ys)) (epid : k'.pid = k.pid)
    (ehash : k'.hashLink = listDel k.hashLink (.hashLink p))
    (elist : k'.listLink = listDel k.listLink (.listLink p))
    (ecount : k'.nrProcess = k.nrProcess - 1) (elast : k'.lastPid = k.lastPid)
    (enext : k'.nextSafe = k.nextSafe) (eidle : k'.idleproc = k.idleproc) :
    ProcTable k' (xs ++ ys) := by
  have hnd := h.nodup
  have hp : p ∉ xs ++ ys := (List.nodup_middle.1 hnd).notMem
  have hsub (q : Nat) : q ∈ xs ++ ys ↔ q ∈ xs ++ p :: ys ∧ q ≠ p := mem_erase_mid hp
  constructor
  · have hl := h.list
    rw [List.map_append, List.map_cons] at hl
    rw [elist, List.map_append]
    exact listDel_mid hl
  · intro i hi
    rw [ehash, epid]
    obtain ⟨d, hd, hdm⟩ := h.hash _ (pidHashfn_lt (k.pid p))
    have hpd : p ∈ d := (hdm p).2 ⟨by simp, rfl⟩
    by_cases hip : i = pidHashfn (k.pid p)
    · subst hip
      obtain ⟨as, bs, rfl⟩ := List.append_of_mem hpd
      have hpn : p ∉ as ++ bs :=
        (List.nodup_middle.1 (hd.nodup_tail.of_map : (as ++ p :: bs).Nodup)).notMem
      rw [List.map_append, List.map_cons] at hd
      refine ⟨as ++ bs, by simpa only [List.map_append] using listDel_mid hd, fun q => ?_⟩
      have hqs : q ∈ as ++ bs ↔ q ∈ as ++ p :: bs ∧ q ≠ p := mem_erase_mid hpn
      rw [hqs, hsub, hdm]
      tauto
    · obtain ⟨c, hc, hcm⟩ := h.hash i hi
      have hpl : HashEntry.hashLink p ∈ d.map .hashLink := List.mem_map_of_mem hpd
      refine ⟨c, listDel_other hd hpl hc (bucket_disjoint (Ne.symm hip) hdm hcm), fun q => ?_⟩
      rw [hcm, hsub]
      refine ⟨fun hq => ⟨⟨hq.1, ?_⟩, hq.2⟩, fun hq => ⟨hq.1.1, hq.2⟩⟩
      rintro rfl
      exact hip hq.2.symm
  · rw [epid]
    exact fun q hq => h.pid_range q ((hsub q).1 hq).1
  · rw [epid]
    exact fun q hq r hr => h.pid_inj q ((hsub q).1 hq).1 r ((hsub r).1 hr).1
  · have := h.count
    simp only [ecount, List.length_append, List.length_cons] at this ⊢
    omega
  · have := h.bound
    rw [ecount]
    omega
  · rw [elast]
    exact h.last
  · rw [elast, enext, epid]
    exact ⟨h.gap.1, fun q hq => h.gap.2 q ((hsub q).1 hq).1⟩
  · rw [eidle]
    exact fun hm => h.idle ((hsub _).1 hm).1

theorem removeLinks_spec {xs : List Nat} (h : Forest k.optr k.yptr k.cptr kids xs none) (hq : q ∈ xs)
    (hk : kids q = as ++ p :: bs) (hp : k.parent p = some q) :
    ∃ c y o, k.removeLinks p = some { k with
        listLink := listDel k.listLink (.listLink p), cptr := c, yptr := y, optr := o
        nrProcess := k.nrProcess - 1 } ∧
      Forest o y c (update kids q (as ++ bs)) xs none ∧
      ∀ x ∉ kids q, y x = k.yptr x ∧ o x = k.optr x := by
  have hchain := h.chain q hq
  have hback := h.backed q hq (by simp)
  rw [hk] at hchain hback
  have hskip (x : Nat) (hx : x ∉ kids q) : backSkip k.yptr (k.yptr p) (k.optr p) x = k.yptr x := by
    apply backSkip_other
    rw [hchain.older_mid]
    rintro he
    apply hx
    rw [hk]
    exact List.mem_append_right _ (List.mem_cons_of_mem _ (List.mem_of_mem_head? he))
  have ho : k.optr p ≠ some p := by
    rw [hchain.older_mid]
    intro he
    have hnd := List.nodup_middle.1 hchain.nodup
    exact hnd.notMem (List.mem_append_right _ (List.mem_of_mem_head? he))
  cases as.eq_nil_or_concat with
  | inl has =>
    subst has
    exact ⟨_, _, _, removeLinks_first hback.1 hp ho, h.erase_first hk hq,
      fun x hx => ⟨hskip x hx, rfl⟩⟩
  | inr has =>
    obtain ⟨as, l, rfl⟩ := has
    simp only [List.concat_eq_append, List.append_assoc, List.singleton_append] at hk hback ⊢
    refine ⟨_, _, _, removeLinks_next hback.younger_next ho, h.erase_next hk hq,
      fun x hx => ⟨hskip x hx, Function.update_of_ne ?_ ..⟩⟩
    rintro rfl
    simp [hk] at hx

theorem ProcTree.link (h : ProcTree k ps kids) (hi : k.idleproc ∉ ps) (hp : p ∉ k.idleproc :: ps) (hc : k.cptr p = none)
    (hpar : k.parent p = some q) (hq : q ∈ k.idleproc :: ps) (hz : k.state q ≠ .zombie)
    (eoptr : k'.optr = update k.optr p (k.cptr q)) (eyptr : k'.yptr = backLink k.yptr p (k.cptr q))
    (ecptr : k'.cptr = update k.cptr q (some p)) (eparent : k'.parent = k.parent)
    (estate : ∀ x ≠ p, k'.state x = k.state x) (hzp : k'.state p ≠ .zombie)
    (eidle : k'.idleproc = k.idleproc) :
    ProcTree k' (p :: ps) (update (update kids p []) q (p :: kids q)) := by
  have hqp : q ≠ p := ne_of_mem_of_not_mem hq hp
  have hkp (x : Nat) (hx : x ∈ k.idleproc :: ps) : p ∉ kids x := fun hm =>
    hp (h.family.kid_mem hx hm)
  have hkids (x : Nat) (hx : x ∈ k.idleproc :: ps) : update kids p [] x = kids x :=
    Function.update_of_ne (ne_of_mem_of_not_mem hx hp) ..
  have hswap : k.idleproc :: p :: ps ⊆ p :: k.idleproc :: ps :=
    (List.Perm.swap p k.idleproc ps).subset
  have hnew (x : Nat) (hx : x ∈ k.idleproc :: ps) : x ∈ k.idleproc :: p :: ps :=
    (List.Perm.swap k.idleproc p ps).subset (List.mem_cons_of_mem _ hx)
  have hold (x : Nat) (hx : x ∈ k.idleproc :: p :: ps) (hxp : x ≠ p) : x ∈ k.idleproc :: ps :=
    (List.mem_cons.1 (hswap hx)).resolve_left hxp
  constructor
  · constructor
    · rw [eoptr, eyptr, ecptr, eidle, ← hkids q hq]
      refine Forest.sub (Forest.adopt (h.family.forest.cons hp hc) ?_ (by simp) ?_) hswap
      · exact List.mem_cons_of_mem _ hq
      · intro x hx
        cases hx with
        | head => simp
        | tail _ hx =>
          rw [hkids x hx]
          exact hkp x hx
    · intro x hx c
      rw [eidle] at hx
      rw [eparent]
      by_cases hxq : x = q
      · subst hxq
        rw [Function.update_self, List.mem_cons, List.mem_cons, h.family.mem_kids x hq]
        constructor
        · rintro (rfl | hm)
          · exact ⟨.inl rfl, hpar⟩
          · exact ⟨.inr hm.1, hm.2⟩
        · rintro ⟨rfl | hm, hx⟩
          · exact .inl rfl
          · exact .inr ⟨hm, hx⟩
      · rw [Function.update_of_ne hxq]
        by_cases hxp : x = p
        · subst hxp
          rw [Function.update_self]
          refine ⟨fun hm => absurd hm List.not_mem_nil, fun ⟨hm, hcx⟩ => absurd hcx ?_⟩
          cases hm with
          | head => exact fun he => hqp (Option.some.inj (hpar.symm.trans he))
          | tail _ hm =>
            obtain ⟨y, hy, hcy, -⟩ := h.parent c hm
            rw [hcy]
            exact fun he => hp (Option.some.inj he ▸ hy)
        · rw [Function.update_of_ne hxp, h.family.mem_kids x (hold x hx hxp)]
          refine ⟨fun hm => ⟨List.mem_cons_of_mem _ hm.1, hm.2⟩, fun ⟨hm, hcx⟩ => ⟨?_, hcx⟩⟩
          cases hm with
          | head => exact absurd (Option.some.inj (hcx.symm.trans hpar)) hxq
          | tail _ hm => exact hm
    · have hip : k.idleproc ≠ p := ne_of_mem_of_not_mem (List.mem_cons_self ..) hp
      rw [eidle, eyptr, eoptr, Function.update_of_ne hip,
        backLink_other hip (h.family.head_ne_idle hi hq)]
      exact h.family.root
  · intro c hc
    rw [eidle, eparent]
    cases hc with
    | head => exact ⟨q, hnew q hq, hpar, hqp, by rwa [estate q hqp]⟩
    | tail _ hc =>
      obtain ⟨y, hy, hcy, hyc, hyz⟩ := h.parent c hc
      exact ⟨y, hnew y hy, hcy, hyc, by rwa [estate y (ne_of_mem_of_not_mem hy hp)]⟩
  · intro x hx hxz
    cases hx with
    | head => exact absurd hxz hzp
    | tail _ hx =>
      have hxm : x ∈ k.idleproc :: ps := List.mem_cons_of_mem _ hx
      rw [estate x (ne_of_mem_of_not_mem hxm hp)] at hxz
      rw [Function.update_of_ne, hkids x hxm]
      · exact h.zombie x hx hxz
      · rintro rfl
        exact hz hxz

theorem ProcTree.unlink (h : ProcTree k (xs ++ p :: ys) kids) (hnd : (xs ++ p :: ys).Nodup)
    (hidle : k.idleproc ∉ xs ++ p :: ys) (hz : k.state p = .zombie)
    (hq : q ∈ k.idleproc :: (xs ++ p :: ys)) (hk : kids q = as ++ p :: bs)
    (hf : Forest k'.optr k'.yptr k'.cptr (update kids q (as ++ bs)) (k.idleproc :: (xs ++ p :: ys)) none)
    (hroot : k'.yptr k.idleproc = none ∧ k'.optr k.idleproc = none)
    (eparent : k'.parent = k.parent) (estate : k'.state = k.state)
    (eidle : k'.idleproc = k.idleproc) :
    ProcTree k' (xs ++ ys) (update kids q (as ++ bs)) := by
  have hpm : p ∈ xs ++ p :: ys := by simp
  have hp : p ∉ xs ++ ys := (List.nodup_middle.1 hnd).notMem
  have hsub (x : Nat) (hx : x ∈ k.idleproc :: (xs ++ ys)) : x ∈ k.idleproc :: (xs ++ p :: ys) := by
    cases hx with
    | head => exact List.mem_cons_self ..
    | tail _ hx => exact List.mem_cons_of_mem _ ((mem_erase_mid hp).1 hx).1
  have hpk : p ∉ as ++ bs := by
    have hchain := h.family.forest.chain q hq
    rw [hk] at hchain
    exact (List.nodup_middle.1 hchain.nodup).notMem
  have hmem (x c : Nat) (hx : x ∈ k.idleproc :: (xs ++ p :: ys)) :
      c ∈ update kids q (as ++ bs) x ↔ c ∈ xs ++ ys ∧ k.parent c = some x := by
    have hpq : k.parent p = some q := ((h.family.mem_kids q hq p).1 (by simp [hk])).2
    by_cases hxq : x = q
    · subst hxq
      rw [Function.update_self, mem_erase_mid hpk, ← hk, h.family.mem_kids x hx, mem_erase_mid hp]
      tauto
    · rw [Function.update_of_ne hxq, h.family.mem_kids x hx, mem_erase_mid hp]
      refine ⟨fun hc => ⟨⟨hc.1, ?_⟩, hc.2⟩, fun hc => ⟨hc.1.1, hc.2⟩⟩
      rintro rfl
      exact hxq (Option.some.inj (hc.2.symm.trans hpq))
  constructor
  · constructor
    · rw [eidle]
      exact hf.sub hsub
    · intro x hx c
      rw [eidle] at hx
      rw [eparent]
      exact hmem x c (hsub x hx)
    · rw [eidle]
      exact hroot
  · intro c hc
    have hcm := ((mem_erase_mid hp).1 hc).1
    obtain ⟨x, hx, hcx, hxc, hxz⟩ := h.parent c hcm
    rw [eidle, eparent, estate]
    refine ⟨x, ?_, hcx, hxc, hxz⟩
    cases hx with
    | head => exact List.mem_cons_self ..
    | tail _ hx =>
      refine List.mem_cons_of_mem _ ((mem_erase_mid hp).2 ⟨hx, ?_⟩)
      rintro rfl
      exact hxz hz
  · intro x hx
    rw [estate]
    intro hxz
    have hnil := h.zombie x ((mem_erase_mid hp).1 hx).1 hxz
    rw [Function.update_of_ne]
    · exact hnil
    · rintro rfl
      simp [hk] at hnil

end

end UCore
