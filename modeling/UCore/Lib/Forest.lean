import UCore.Lib.Chain

namespace UCore
set_option autoImplicit true

/-- The chains that the nodes `xs` head are disjoint and linked both ways, but for the backward links
of the chain at `loose`. -/
structure Forest (older younger head : ν → Option ν) (kids : ν → List ν) (xs : List ν)
    (loose : Option ν) : Prop where
  chain : ∀ x ∈ xs, Chain older (head x) (kids x)
  backed : ∀ x ∈ xs, some x ≠ loose → Backed younger none (kids x)
  disjoint : ∀ x ∈ xs, ∀ y ∈ xs, x ≠ y → ∀ c ∈ kids x, c ∉ kids y

section
variable {ν : Type} {older younger head : ν → Option ν} {kids : ν → List ν} {xs : List ν}
  {loose : Option ν}

theorem Forest.congr {older' younger' head' : ν → Option ν}
    (h : Forest older younger head kids xs loose) (hh : ∀ x ∈ xs, head' x = head x)
    (ho : ∀ x ∈ xs, ∀ c ∈ kids x, older' c = older c)
    (hy : ∀ x ∈ xs, ∀ c ∈ kids x, younger' c = younger c) :
    Forest older' younger' head' kids xs loose where
  chain x hx := hh x hx ▸ (h.chain x hx).congr (ho x hx)
  backed x hx hl := (h.backed x hx hl).congr (hy x hx)
  disjoint := h.disjoint

theorem Forest.sub (h : Forest older younger head kids xs loose) (hs : ys ⊆ xs) :
    Forest older younger head kids ys loose where
  chain x hx := h.chain x (hs hx)
  backed x hx := h.backed x (hs hx)
  disjoint x hx y hy := h.disjoint x (hs hx) y (hs hy)

theorem Forest.loosen (h : Forest older younger head kids xs none) (q : ν) :
    Forest older younger head kids xs (some q) :=
  { h with backed := fun x hx _ => h.backed x hx (by simp) }

theorem Forest.tighten (h : Forest older younger head kids xs (some q)) (hq : kids q = []) :
    Forest older younger head kids xs none where
  chain := h.chain
  backed x hx _ := by
    by_cases hxq : x = q
    · rw [hxq, hq]
      trivial
    · exact h.backed x hx (by simpa using hxq)
  disjoint := h.disjoint

variable [DecidableEq ν]
open Function (update)

/-- Add a node without a chain. -/
theorem Forest.cons (h : Forest older younger head kids xs loose) (hp : p ∉ xs) (hh : head p = none) :
    Forest older younger head (update kids p []) (p :: xs) loose := by
  have hkids (x : ν) (hx : x ∈ xs) : update kids p [] x = kids x :=
    Function.update_of_ne (ne_of_mem_of_not_mem hx hp) ..
  constructor
  · intro x hx
    cases hx with
    | head => simpa [Chain] using hh
    | tail _ hx =>
      rw [hkids x hx]
      exact h.chain x hx
  · intro x hx hl
    cases hx with
    | head => simp [Backed]
    | tail _ hx =>
      rw [hkids x hx]
      exact h.backed x hx hl
  · intro x hx y hy hxy c hc
    cases hx with
    | head => simp at hc
    | tail _ hx =>
      cases hy with
      | head => simp
      | tail _ hy =>
        rw [hkids x hx] at hc
        rw [hkids y hy]
        exact h.disjoint x hx y hy hxy c hc

/-- The backward links after a store of `p` before the node `o`. -/
def backLink (younger : ν → Option ν) (p : ν) : Option ν → ν → Option ν
  | none => update younger p none
  | some o => update (update younger p none) o (some p)

theorem backLink_other (hp : x ≠ p) (ho : o ≠ some x) : backLink younger p o x = younger x := by
  cases o with
  | none => exact Function.update_of_ne hp ..
  | some o =>
    have hxo : x ≠ o := fun he => ho (congrArg some he.symm)
    exact (Function.update_of_ne hxo ..).trans (Function.update_of_ne hp ..)

/-- Put the node `p` before the chain of `q`. -/
theorem Forest.adopt (h : Forest older younger head kids xs loose) (hq : q ∈ xs)
    (hl : some q ≠ loose) (hp : ∀ x ∈ xs, p ∉ kids x) :
    Forest (update older p (head q)) (backLink younger p (head q)) (update head q (some p))
      (update kids q (p :: kids q)) xs loose := by
  have hchain := h.chain q hq
  constructor
  · intro x hx
    have hc : Chain (update older p (head q)) (head x) (kids x) := (h.chain x hx).congr fun c hc =>
      Function.update_of_ne (ne_of_mem_of_not_mem hc (hp x hx)) ..
    by_cases hxq : x = q
    · subst hxq
      simp only [Function.update_self]
      exact ⟨rfl, by rwa [Function.update_self]⟩
    · rwa [Function.update_of_ne hxq, Function.update_of_ne hxq]
  · intro x hx hxl
    by_cases hxq : x = q
    · subst hxq
      rw [Function.update_self, hchain.head_eq]
      have hb := (h.backed x hx hl).cons_update (hp x hx) hchain.nodup
      cases hk : (kids x).head? with
      | none => simpa only [backLink, hk] using hb
      | some o => simpa only [backLink, hk] using hb
    · rw [Function.update_of_ne hxq]
      refine (h.backed x hx hxl).congr fun c hc => ?_
      apply backLink_other (ne_of_mem_of_not_mem hc (hp x hx))
      rw [hchain.head_eq]
      exact fun he => h.disjoint x hx q hq hxq c hc (List.mem_of_mem_head? he)
  · intro x hx y hy hxy c hc
    by_cases hxq : x = q
    · subst hxq
      rw [Function.update_self] at hc
      rw [Function.update_of_ne (Ne.symm hxy)]
      cases hc with
      | head => exact hp y hy
      | tail _ hc => exact h.disjoint x hx y hy hxy c hc
    · rw [Function.update_of_ne hxq] at hc
      by_cases hyq : y = q
      · subst hyq
        rw [Function.update_self]
        intro hm
        cases hm with
        | head => exact hp x hx hc
        | tail _ hm => exact h.disjoint x hx y hy hxy c hc hm
      · rw [Function.update_of_ne hyq]
        exact h.disjoint x hx y hy hxy c hc

theorem Forest.disjoint_sub (h : Forest older younger head kids xs loose) (hs : ks ⊆ kids q)
    (hx : x ∈ xs) (hy : y ∈ xs) (hxy : x ≠ y) (hc : c ∈ update kids q ks x) :
    c ∉ update kids q ks y := by
  have hsub (z : ν) (hz : c ∈ update kids q ks z) : c ∈ kids z := by
    by_cases hzq : z = q
    · subst hzq
      rw [Function.update_self] at hz
      exact hs hz
    · rwa [Function.update_of_ne hzq] at hz
  exact fun hm => h.disjoint x hx y hy hxy c (hsub x hc) (hsub y hm)

/-- Advance the head of the loose chain past its first node. -/
theorem Forest.behead (h : Forest older younger head kids xs (some q)) (hk : kids q = p :: rest)
    (hq : q ∈ xs) :
    Forest older younger (update head q (older p)) (update kids q rest) xs (some q) := by
  constructor
  · intro x hx
    by_cases hxq : x = q
    · subst hxq
      have hc := h.chain x hx
      rw [hk] at hc
      rw [Function.update_self, Function.update_self]
      exact hc.2
    · rw [Function.update_of_ne hxq, Function.update_of_ne hxq]
      exact h.chain x hx
  · intro x hx hl
    have hxq : x ≠ q := fun he => hl (congrArg some he)
    rw [Function.update_of_ne hxq]
    exact h.backed x hx hl
  · intro x hx y hy hxy c hc
    apply h.disjoint_sub (fun z hz => ?_) hx hy hxy hc
    rw [hk]
    exact List.mem_cons_of_mem _ hz

/-- The backward links after the node with `older = o` and `younger = y` was taken out. -/
def backSkip (younger : ν → Option ν) (y : Option ν) : Option ν → ν → Option ν
  | none => younger
  | some o => update younger o y

theorem backSkip_other (ho : o ≠ some x) : backSkip younger y o x = younger x := by
  cases o with
  | none => rfl
  | some o => exact Function.update_of_ne (fun he => ho (congrArg some he.symm)) ..

theorem Forest.erase_backed (h : Forest older younger head kids xs none) (hk : kids q = as ++ p :: bs)
    (hq : q ∈ xs) (hx : x ∈ xs) :
    Backed (backSkip younger (younger p) (older p)) none (update kids q (as ++ bs) x) := by
  have hchain := h.chain q hq
  rw [hk] at hchain
  rw [hchain.older_mid]
  by_cases hxq : x = q
  · subst hxq
    have hb := h.backed x hx (by simp)
    rw [hk] at hb
    have he := hb.erase hchain.nodup
    rw [Function.update_self]
    cases hh : bs.head? with
    | none => simpa only [backSkip, hh] using he
    | some o => simpa only [backSkip, hh] using he
  · rw [Function.update_of_ne hxq]
    refine (h.backed x hx (by simp)).congr fun c hc => backSkip_other fun he => ?_
    have hcq : c ∈ kids q := by
      rw [hk]
      exact List.mem_append_right _ (List.mem_cons_of_mem _ (List.mem_of_mem_head? he))
    exact h.disjoint x hx q hq hxq c hc hcq

theorem Forest.erase_first (h : Forest older younger head kids xs none) (hk : kids q = p :: bs)
    (hq : q ∈ xs) :
    Forest older (backSkip younger (younger p) (older p)) (update head q (older p))
      (update kids q bs) xs none := by
  have hk' : kids q = [] ++ p :: bs := hk
  exact { (h.loosen q).behead hk hq with backed := fun x hx _ => h.erase_backed hk' hq hx }

theorem Forest.erase_next (h : Forest older younger head kids xs none)
    (hk : kids q = as ++ l :: p :: bs) (hq : q ∈ xs) :
    Forest (update older l (older p)) (backSkip younger (younger p) (older p)) head
      (update kids q (as ++ l :: bs)) xs none := by
  have hsplit : as ++ l :: p :: bs = (as ++ [l]) ++ p :: bs := by simp
  have hjoin : as ++ l :: bs = (as ++ [l]) ++ bs := by simp
  constructor
  · intro x hx
    by_cases hxq : x = q
    · subst hxq
      have hc := h.chain x hx
      rw [hk] at hc
      rw [Function.update_self]
      exact hc.erase_next
    · rw [Function.update_of_ne hxq]
      refine (h.chain x hx).congr fun c hc => Function.update_of_ne ?_ ..
      rintro rfl
      exact h.disjoint x hx q hq hxq c hc (by simp [hk])
  · intro x hx _
    rw [hjoin]
    exact h.erase_backed (hk.trans hsplit) hq hx
  · intro x hx y hy hxy c hc
    apply h.disjoint_sub (fun z hz => ?_) hx hy hxy hc
    rw [hk]
    simp only [List.mem_append, List.mem_cons] at hz ⊢
    tauto

end

end UCore
