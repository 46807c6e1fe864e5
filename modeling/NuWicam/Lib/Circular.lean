import Mathlib.Data.List.Chain
import Mathlib.Data.List.Nodup
import Mathlib.Logic.Function.Basic

/-!
# Circular doubly linked lists

`Circular nx pv head xs`: from the pointer `head` on the nodes are `xs`, each one linked to the next and back, and the last one to
the first. `Circular.push` adds a node behind the last one and `Circular.pop` takes the first one out.
-/

namespace NuWicam.Lib

open List Function Option

variable {α : Type*} {nx pv nx' pv' : α → α} {head : Option α} {a b : α} {xs : List α}

def LinkedTo (nx pv : α → α) (a b : α) : Prop := nx a = b ∧ pv b = a

structure Circular (nx pv : α → α) (head : Option α) (xs : List α) : Prop where
  head_eq : head = xs.head?
  nodup : xs.Nodup
  chain : xs.IsChain (LinkedTo nx pv)
  closed : ∀ a ∈ xs.getLast?, ∀ b ∈ xs.head?, LinkedTo nx pv a b

namespace Circular

theorem nil : Circular nx pv none [] := ⟨rfl, by simp, isChain_nil, nofun⟩

theorem singleton (hnx : nx a = a) (hpv : pv a = a) : Circular nx pv (some a) [a] := by
  refine ⟨rfl, nodup_singleton a, isChain_singleton a, fun c hc d hd => ?_⟩
  cases hc
  cases hd
  exact ⟨hnx, hpv⟩

/-- **Frame rule**: a ring depends on its links alone. -/
theorem congr (h : Circular nx pv head xs) (hnx : ∀ a ∈ xs, nx' a = nx a) (hpv : ∀ a ∈ xs, pv' a = pv a) :
    Circular nx' pv' head xs := by
  have hlinked : ∀ a b, a ∈ xs → b ∈ xs → LinkedTo nx pv a b → LinkedTo nx' pv' a b := fun a b ha hb hab =>
    ⟨(hnx a ha).trans hab.1, (hpv b hb).trans hab.2⟩
  exact ⟨h.head_eq, h.nodup, h.chain.imp_of_mem_imp hlinked, fun a ha b hb =>
    hlinked a b (mem_of_getLast? ha) (mem_of_head? hb) (h.closed a ha b hb)⟩

theorem chain_congr (hnodup : xs.Nodup) (hchain : xs.IsChain (LinkedTo nx pv))
    (hnx : ∀ a ∈ xs, a ∉ xs.getLast? → nx' a = nx a) (hpv : ∀ b ∈ xs, b ∉ xs.head? → pv' b = pv b) :
    xs.IsChain (LinkedTo nx' pv') := by
  induction xs with
  | nil => exact isChain_nil
  | cons a xs ih =>
    cases xs with
    | nil => exact isChain_singleton a
    | cons b xs =>
      obtain ⟨⟨hab, hba⟩, hrest⟩ := isChain_cons_cons.mp hchain
      obtain ⟨ha, hnodup⟩ := nodup_cons.mp hnodup
      rw [getLast?_cons_cons] at hnx
      have hne : ∀ c ∈ b :: xs, c ∉ (a :: b :: xs).head? := by
        rintro c hc hac
        cases hac
        exact ha hc
      refine isChain_cons_cons.mpr ⟨⟨?_, ?_⟩, ih hnodup hrest (fun c hc => hnx c (mem_cons_of_mem a hc))
        fun c hc _ => hpv c (mem_cons_of_mem a hc) (hne c hc)⟩
      · exact (hnx a mem_cons_self fun hlast => ha (mem_of_getLast? hlast)).trans hab
      · exact (hpv b (by simp) (hne b mem_cons_self)).trans hba

variable [DecidableEq α]

theorem pop (h : Circular nx pv head (a :: b :: xs)) :
    nx a = b ∧ pv a ∈ b :: xs ∧ Circular (update nx (pv a) b) (update pv b (pv a)) (some b) (b :: xs) := by
  obtain ⟨hab, hrest⟩ := isChain_cons_cons.mp h.chain
  have hnodup := h.nodup.of_cons
  have hlast : pv a ∈ (b :: xs).getLast? := by
    obtain ⟨c, hc⟩ := ne_none_iff_exists'.mp (mt getLast?_eq_none_iff.mp (cons_ne_nil b xs))
    rw [(h.closed c (by rw [getLast?_cons_cons, hc]; rfl) a rfl).2]
    exact hc
  refine ⟨hab.1, mem_of_getLast? hlast, rfl, hnodup, chain_congr hnodup hrest ?_ ?_, ?_⟩
  · rintro c - hc
    exact update_of_ne (by rintro rfl; exact hc hlast) ..
  · rintro c - hc
    exact update_of_ne (by rintro rfl; exact hc rfl) ..
  · rintro c hc _ ⟨⟩
    rw [mem_unique hc hlast]
    exact ⟨update_self .., update_self ..⟩

theorem push (h : Circular nx pv head (b :: xs)) (ha : a ∉ b :: xs) : pv b ∈ b :: xs ∧
    Circular (update (update nx a b) (pv b) a) (update (update pv a (pv b)) b a) (some b) (b :: xs ++ [a]) := by
  obtain ⟨c, hc⟩ := ne_none_iff_exists'.mp (mt getLast?_eq_none_iff.mp (cons_ne_nil b xs))
  have hback : pv b = c := (h.closed c hc b rfl).2
  have hca : c ≠ a := fun heq => ha (heq ▸ mem_of_getLast? hc)
  have hba : b ≠ a := fun heq => ha (heq ▸ mem_cons_self)
  rw [hback]
  refine ⟨mem_of_getLast? hc, rfl, nodup_append.mpr ⟨h.nodup, nodup_singleton a, by grind⟩,
    isChain_append.mpr ⟨?_, isChain_singleton a, ?_⟩, ?_⟩
  · refine chain_congr h.nodup h.chain (fun d hd hlast => ?_) fun d hd hfirst => ?_
    · rw [update_of_ne (by rintro rfl; exact hlast hc), update_of_ne (by rintro rfl; exact ha hd)]
    · rw [update_of_ne (by rintro rfl; exact hfirst rfl), update_of_ne (by rintro rfl; exact ha hd)]
  · rintro d hd _ ⟨⟩
    rw [mem_unique hd hc]
    exact ⟨update_self .., by rw [update_of_ne hba.symm, update_self]⟩
  · rintro d hd _ ⟨⟩
    rw [getLast?_concat] at hd
    cases hd
    exact ⟨by rw [update_of_ne hca.symm, update_self], update_self ..⟩

end Circular

end NuWicam.Lib
