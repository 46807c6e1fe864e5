import Mathlib.Data.List.Basic

/-!
# The lines of a text

`lines sep text` cuts a text after each `sep`; every line but the last ends in `sep`.
-/

namespace NuWicam.Lib

open List

variable {α : Type*} [DecidableEq α] {sep : α}

/-- The text cut after each `sep`. -/
def lines (sep : α) : List α → List (List α)
  | [] => []
  | c :: text =>
    if c = sep then [c] :: lines sep text
    else match lines sep text with
      | [] => [[c]]
      | l :: ls => (c :: l) :: ls

theorem lines_sep (text : List α) : lines sep (sep :: text) = [sep] :: lines sep text := if_pos rfl

variable {text l : List α} {ls : List (List α)}

theorem lines_of_ne {c : α} (hc : c ≠ sep) (h : lines sep text = l :: ls) : lines sep (c :: text) = (c :: l) :: ls := by
  rw [lines, if_neg hc, h]

theorem lines_eq_nil : lines sep text = [] ↔ text = [] := by
  cases text with
  | nil => exact ⟨fun _ => rfl, fun _ => rfl⟩
  | cons c text =>
    refine ⟨fun h => ?_, nofun⟩
    rw [lines] at h
    split at h
    · cases h
    · generalize lines sep text = ls at h
      cases ls <;> cases h

theorem lines_cons_cases (sep c : α) (text : List α) : (c = sep ∧ lines sep (c :: text) = [c] :: lines sep text) ∨
    (c ≠ sep ∧ text = [] ∧ lines sep (c :: text) = [[c]]) ∨
    (c ≠ sep ∧ ∃ l ls, lines sep text = l :: ls ∧ lines sep (c :: text) = (c :: l) :: ls) := by
  by_cases hc : c = sep
  · exact .inl ⟨hc, if_pos hc⟩
  · cases h : lines sep text with
    | nil =>
      have hnil := lines_eq_nil.mp h
      subst hnil
      exact .inr (.inl ⟨hc, rfl, if_neg hc⟩)
    | cons l ls => exact .inr (.inr ⟨hc, l, ls, rfl, lines_of_ne hc h⟩)

theorem flatten_lines (sep : α) : ∀ text : List α, (lines sep text).flatten = text
  | [] => rfl
  | c :: text => by
    have ih := flatten_lines sep text
    rcases lines_cons_cases sep c text with ⟨-, h⟩ | ⟨-, rfl, h⟩ | ⟨-, l, ls, hls, h⟩
    · rw [h, flatten_cons, ih]
      rfl
    · rw [h]
      rfl
    · rw [h, flatten_cons, cons_append, ← flatten_cons, ← hls, ih]

theorem lines_eq_cons : ∀ {text l : List α} {ls : List (List α)}, lines sep text = l :: ls → lines sep ls.flatten = ls
  | [], _, _, h => by cases h
  | c :: text, l, ls, h => by
    rcases lines_cons_cases sep c text with ⟨-, h'⟩ | ⟨-, -, h'⟩ | ⟨-, l', ls', hls, h'⟩
    · cases h.symm.trans h'
      rw [flatten_lines]
    · cases h.symm.trans h'
      rfl
    · cases h.symm.trans h'
      exact lines_eq_cons hls

theorem ne_nil_of_lines (h : lines sep text = l :: ls) : l ≠ [] := by
  cases text with
  | nil => cases h
  | cons c text =>
    rcases lines_cons_cases sep c text with ⟨-, h'⟩ | ⟨-, -, h'⟩ | ⟨-, l', ls', -, h'⟩ <;>
    · cases h.symm.trans h'
      simp

/-- `l` is a line with its end. -/
def IsLine (sep : α) (l : List α) : Prop := ∃ body, sep ∉ body ∧ l = body ++ [sep]

theorem IsLine.lines_append (h : IsLine sep l) (text : List α) : lines sep (l ++ text) = l :: lines sep text := by
  obtain ⟨body, hbody, rfl⟩ := h
  induction body with
  | nil => exact lines_sep text
  | cons c body ih =>
    rw [mem_cons, not_or] at hbody
    exact lines_of_ne (Ne.symm hbody.1) (ih hbody.2)

theorem lines_of_not_mem : ∀ {l : List α}, l ≠ [] → sep ∉ l → lines sep l = [l]
  | [], hne, _ => (hne rfl).elim
  | [c], _, h => by
    have hc : c ≠ sep := fun hc => h (mem_singleton.mpr hc.symm)
    exact if_neg hc
  | c :: d :: l, _, h => by
    rw [mem_cons, not_or] at h
    exact lines_of_ne (Ne.symm h.1) (lines_of_not_mem (by simp) h.2)

inductive AreLines (sep : α) : List (List α) → Prop
  | nil : AreLines sep []
  | last {l : List α} : l ≠ [] → sep ∉ l → AreLines sep [l]
  | cons {l : List α} {ls : List (List α)} : IsLine sep l → AreLines sep ls → AreLines sep (l :: ls)

theorem AreLines.lines_flatten (h : AreLines sep ls) : lines sep ls.flatten = ls := by
  induction h with
  | nil => rfl
  | last hne hmem =>
    rw [flatten_cons, flatten_nil, append_nil]
    exact lines_of_not_mem hne hmem
  | cons hl _ ih => rw [flatten_cons, hl.lines_append, ih]

theorem areLines_lines (sep : α) : ∀ text : List α, AreLines sep (lines sep text)
  | [] => .nil
  | c :: text => by
    have ih := areLines_lines sep text
    rcases lines_cons_cases sep c text with ⟨rfl, h⟩ | ⟨hc, -, h⟩ | ⟨hc, l, ls, hls, h⟩
    · rw [h]
      exact .cons ⟨[], by simp, rfl⟩ ih
    · rw [h]
      exact .last (by simp) fun hmem => hc (mem_singleton.mp hmem).symm
    · rw [hls] at ih
      rw [h]
      cases ih with
      | last hne hmem =>
        exact .last (by simp) fun hm => (mem_cons.mp hm).elim (fun e => hc e.symm) hmem
      | cons hl hrest =>
        obtain ⟨body, hbody, rfl⟩ := hl
        exact .cons ⟨c :: body, fun hm => (mem_cons.mp hm).elim (fun e => hc e.symm) hbody, rfl⟩ hrest

omit [DecidableEq α] in
theorem AreLines.map (h : AreLines sep ls) {f : List α → List α}
    (hf : ∀ l ∈ ls, f l = l ∨ IsLine sep (f l)) : AreLines sep (ls.map f) := by
  induction h with
  | nil => exact .nil
  | @last l hne hmem =>
    rcases hf l mem_cons_self with heq | hline
    · rw [map_cons, heq]
      exact .last hne hmem
    · exact .cons hline .nil
  | @cons l ls hl _ ih =>
    refine .cons ?_ (ih fun l' hl' => hf l' (mem_cons_of_mem _ hl'))
    rcases hf l mem_cons_self with heq | hline
    · rw [heq]
      exact hl
    · exact hline

end NuWicam.Lib
