import Mathlib.Algebra.Order.Ring.Int
import Mathlib.Data.List.Nodup
import UCore.Lib.Tally

namespace UCore
set_option autoImplicit true
open Function (update)

/-- The users `X` of the objects `objs`, each of at most one: the count of an object is the number of its users,
and no object is without a user. -/
structure Owners {ι : Type} {κ : Type} [DecidableEq κ] (X : Finset ι) (own : ι → Option κ) (objs : List κ)
    (count : κ → Int) : Prop where
  nodup : objs.Nodup
  mem : ∀ x ∈ X, ∀ c, own x = some c → c ∈ objs
  count : ∀ c ∈ objs, count c = tally X own c
  used : ∀ c ∈ objs, ∃ x ∈ X, own x = some c

section
variable {ι : Type} {κ : Type} [DecidableEq κ] {X Y : Finset ι} {own own' : ι → Option κ} {objs : List κ}
  {count count' : κ → Int} {x : ι} {c : κ}

theorem tally_pos : 0 < tally X own c ↔ ∃ x ∈ X, own x = some c := by
  rw [Nat.pos_iff_ne_zero, Ne, tally_eq_zero]
  simp

theorem tally_toFinset [DecidableEq ι] {l : List ι} (h : l.Nodup) :
    tally l.toFinset own c = l.countP fun x => own x = some c := by
  rw [tally, List.countP_eq_length_filter, ← List.toFinset_card_of_nodup (h.filter _), List.toFinset_filter]
  simp

namespace Owners

theorem mem_iff (h : Owners X own objs count) : c ∈ objs ↔ ∃ x ∈ X, own x = some c := by
  constructor
  · exact h.used c
  · rintro ⟨x, hx, hc⟩
    exact h.mem x hx c hc

theorem pos (h : Owners X own objs count) (hc : c ∈ objs) : 1 ≤ count c := by
  rw [h.count c hc]
  have hp := tally_pos.2 (h.used c hc)
  omega

theorem empty : Owners (∅ : Finset ι) own [] count := ⟨.nil, by simp, nofun, nofun⟩

theorem congr (h : Owners X own objs count) (ho : ∀ x ∈ X, own' x = own x) (hc : ∀ c ∈ objs, count' c = count c) :
    Owners X own' objs count' where
  nodup := h.nodup
  mem x hx c hxc := h.mem x hx c ((ho x hx).symm.trans hxc)
  count c hm := by rw [hc c hm, h.count c hm, tally_congr ho]
  used c hm := by
    obtain ⟨x, hx, hxc⟩ := h.used c hm
    exact ⟨x, hx, (ho x hx).trans hxc⟩

/-- Who uses nothing does not count. -/
theorem idle (h : Owners X own objs count) (hX : ∀ x, own x ≠ none → (x ∈ Y ↔ x ∈ X)) : Owners Y own objs count := by
  have hmem (c : κ) : (∃ x ∈ Y, own x = some c) ↔ ∃ x ∈ X, own x = some c := by
    refine exists_congr fun x => and_congr_left fun hx => hX x ?_
    rw [hx]
    exact Option.some_ne_none c
  refine ⟨h.nodup, fun x hx c hc => h.mem_iff.2 ((hmem c).1 ⟨x, hx, hc⟩), fun c hc => ?_, fun c hc => ?_⟩
  · rw [h.count c hc]
    refine congrArg (fun s => ((Finset.card s : Nat) : Int)) (Finset.ext fun x => ?_)
    rw [Finset.mem_filter, Finset.mem_filter]
    refine and_congr_left fun hx => (hX x ?_).symm
    rw [hx]
    exact Option.some_ne_none c
  · exact (hmem c).2 (h.used c hc)

variable [DecidableEq ι]

/-- A further user of an object. -/
theorem share (h : Owners X own objs count) (hx : x ∈ X) (hno : own x = none) (hc : c ∈ objs) :
    Owners X (update own x (some c)) objs (update count c (count c + 1)) where
  nodup := h.nodup
  mem y hy e hye := by
    by_cases hyx : y = x
    · rw [hyx, Function.update_self] at hye
      cases hye
      exact hc
    · rw [Function.update_of_ne hyx] at hye
      exact h.mem y hy e hye
  count e he := by
    have hu := tally_update (f := own) hx (some c) e
    rw [hno, if_neg (Option.some_ne_none e).symm, Nat.add_zero] at hu
    rw [hu]
    by_cases hec : e = c
    · rw [hec, Function.update_self, h.count c hc, if_pos rfl]
      exact (Nat.cast_succ _).symm
    · rw [Function.update_of_ne hec, h.count e he, if_neg fun hce => hec (Option.some.inj hce).symm, Nat.add_zero]
  used e he := by
    obtain ⟨y, hy, hye⟩ := h.used e he
    refine ⟨y, hy, (Function.update_of_ne ?_ ..).trans hye⟩
    rintro rfl
    rw [hno] at hye
    cases hye

/-- A new object with a user. -/
theorem take (h : Owners X own objs count) (hx : x ∈ X) (hno : own x = none) (hc : c ∉ objs)
    (hone : count' c = 1) (hold : ∀ e ∈ objs, count' e = count e) :
    Owners X (update own x (some c)) (c :: objs) count' where
  nodup := List.nodup_cons.2 ⟨hc, h.nodup⟩
  mem y hy e hye := by
    by_cases hyx : y = x
    · rw [hyx, Function.update_self] at hye
      cases hye
      exact List.mem_cons_self ..
    · rw [Function.update_of_ne hyx] at hye
      exact List.mem_cons_of_mem _ (h.mem y hy e hye)
  count e he := by
    have hu := tally_update (f := own) hx (some c) e
    rw [hno, if_neg (Option.some_ne_none e).symm, Nat.add_zero] at hu
    rw [hu]
    by_cases hec : e = c
    · have hz : tally X own c = 0 := tally_eq_zero.2 fun y hy hyc => hc (h.mem y hy c hyc)
      rw [hec, hone, hz, if_pos rfl]
      rfl
    · have he := (List.mem_cons.1 he).resolve_left hec
      rw [hold e he, h.count e he, if_neg fun hce => hec (Option.some.inj hce).symm, Nat.add_zero]
  used e he := by
    by_cases hec : e = c
    · exact ⟨x, hx, by rw [hec, Function.update_self]⟩
    · obtain ⟨y, hy, hye⟩ := h.used e ((List.mem_cons.1 he).resolve_left hec)
      refine ⟨y, hy, (Function.update_of_ne ?_ ..).trans hye⟩
      rintro rfl
      rw [hno] at hye
      cases hye

/-- The numbers of users when one of them leaves. -/
theorem tally_leave (hx : x ∈ X) (hc : own x = some c) (e : κ) :
    tally X (update own x none) e + (if e = c then 1 else 0) = tally X own e := by
  have hu := tally_update (f := own) hx none e
  rw [if_neg (Option.some_ne_none e).symm, Nat.add_zero, hc] at hu
  rw [← hu]
  refine congrArg _ (if_congr ?_ rfl rfl)
  rw [Option.some.injEq]
  exact eq_comm

/-- A user who is not the only one leaves an object. -/
theorem leave (h : Owners X own objs count) (hx : x ∈ X) (hc : own x = some c) (hmore : count c ≠ 1) :
    Owners X (update own x none) objs (update count c (count c - 1)) := by
  have hcount (e : κ) (he : e ∈ objs) : update count c (count c - 1) e = tally X (update own x none) e := by
    have hl := tally_leave hx hc e
    by_cases hec : e = c
    · subst hec
      rw [if_pos rfl] at hl
      rw [Function.update_self, h.count e he]
      omega
    · rw [if_neg hec] at hl
      rw [Function.update_of_ne hec, h.count e he]
      omega
  refine ⟨h.nodup, fun y hy e hye => ?_, hcount, fun e he => ?_⟩
  · by_cases hyx : y = x
    · rw [hyx, Function.update_self] at hye
      cases hye
    · rw [Function.update_of_ne hyx] at hye
      exact h.mem y hy e hye
  · apply tally_pos.1
    have hpos := h.pos he
    have hce := hcount e he
    by_cases hec : e = c
    · rw [hec, Function.update_self] at hce
      rw [hec] at hpos ⊢
      omega
    · rw [Function.update_of_ne hec] at hce
      omega

/-- The last user leaves an object, and takes it away. -/
theorem drop (h : Owners X own objs count) (hx : x ∈ X) (hc : own x = some c) (hone : count c = 1)
    (hold : ∀ e ∈ objs, e ≠ c → count' e = count e) : Owners X (update own x none) (objs.erase c) count' := by
  have hm := h.mem x hx c hc
  have hlast : tally X (update own x none) c = 0 := by
    have hl := tally_leave hx hc c
    rw [if_pos rfl] at hl
    have hcc := h.count c hm
    omega
  have hmem (e : κ) : e ∈ objs.erase c ↔ e ≠ c ∧ e ∈ objs := h.nodup.mem_erase_iff
  refine ⟨h.nodup.erase c, fun y hy e hye => ?_, fun e he => ?_, fun e he => ?_⟩
  · refine (hmem e).2 ⟨?_, ?_⟩
    · rintro rfl
      exact tally_eq_zero.1 hlast y hy hye
    · by_cases hyx : y = x
      · rw [hyx, Function.update_self] at hye
        cases hye
      · rw [Function.update_of_ne hyx] at hye
        exact h.mem y hy e hye
  · obtain ⟨hec, he⟩ := (hmem e).1 he
    have hl := tally_leave hx hc e
    rw [if_neg hec] at hl
    rw [hold e he hec, h.count e he]
    omega
  · obtain ⟨hec, he⟩ := (hmem e).1 he
    obtain ⟨y, hy, hye⟩ := h.used e he
    refine ⟨y, hy, (Function.update_of_ne ?_ ..).trans hye⟩
    rintro rfl
    rw [hc] at hye
    exact hec (Option.some.inj hye).symm

end Owners

end

end UCore
