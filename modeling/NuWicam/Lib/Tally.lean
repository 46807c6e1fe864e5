import Mathlib.Data.List.Basic
import Mathlib.Data.List.Count
import Mathlib.Logic.Function.Basic

/-!
# Tallies

How a count over a list of lists, or over a family of lists, changes when one of the lists is replaced.
-/

namespace NuWicam.Lib

open List Function

variable {α β γ : Type*} [BEq α]

theorem count_flatMap_set (g : β → List α) (b' : β) (a : α) : ∀ {l : List β} {t : Nat} {b : β}, l[t]? = some b →
    ((l.set t b').flatMap g).count a + (g b).count a = (l.flatMap g).count a + (g b').count a
  | [], _, _, h => by cases h
  | x :: l, 0, b, h => by
    obtain rfl : x = b := Option.some.inj h
    simp only [set_cons_zero, flatMap_cons, count_append]
    omega
  | x :: l, t + 1, b, h => by
    have ih := count_flatMap_set g b' a (l := l) (t := t) (b := b) h
    simp only [set_cons_succ, flatMap_cons, count_append]
    omega

theorem count_flatMap_update [DecidableEq β] (g : γ → List α) (c : β → γ) (b : β) (v : γ) (a : α) :
    ∀ {l : List β}, l.Nodup → b ∈ l → (l.flatMap fun x => g (update c b v x)).count a + (g (c b)).count a =
      (l.flatMap fun x => g (c x)).count a + (g v).count a
  | [], _, h => absurd h List.not_mem_nil
  | x :: l, hnodup, hmem => by
    obtain ⟨hx, hnodup⟩ := nodup_cons.1 hnodup
    simp only [flatMap_cons, count_append]
    rcases mem_cons.1 hmem with rfl | hmem
    · have hrest : (l.flatMap fun x => g (update c b v x)) = l.flatMap fun x => g (c x) :=
        flatMap_congr fun y hy => by rw [update_of_ne (ne_of_mem_of_not_mem hy hx)]
      rw [hrest, update_self]
      omega
    · have ih := count_flatMap_update g c b v a hnodup hmem
      rw [update_of_ne (ne_of_mem_of_not_mem hmem hx).symm]
      omega

end NuWicam.Lib
