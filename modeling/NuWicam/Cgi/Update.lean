import NuWicam.Cgi.Query

/-!
# What `configs_update` writes (`param.c`)

`strtok_r` cuts the text after `group=` at every `&`, and `strtok` each token at its first `=`; the value starts behind the
`NUL` of the name, whether a `=` was there or not. `tokens` and `pairs` say the same without `strtok`
(`configsUpdate_applies_iff`).
-/

namespace NuWicam.Cgi

open Lib List Option

/-! ## The pairs of a query -/

def tokens (c : UInt8) (s : Str) : List Str := (s.splitOn c).filter fun t => t ≠ []

def pairOf (token : Str) : Option (Str × Str) :=
  if (61 : UInt8) ∈ token ∧ token.head? ≠ some 61 then
    some (token.takeWhile (· != 61), (token.dropWhile (· != 61)).tail)
  else none

def pairs (query : Str) : List (Str × Str) := (tokens 38 query).filterMap pairOf

theorem tokens_nil (c : UInt8) : tokens c [] = [] := by simp [tokens]

theorem tokens_skip (c : UInt8) (s : Str) : tokens c (c :: s) = tokens c s := by
  have h : (c :: s).splitOn c = ([] : Str).splitOn c ++ s.splitOn c :=
    splitOnP_append_cons [] s (beq_self_eq_true c)
  rw [tokens, h, splitOn_nil, filter_append]
  rfl

theorem tokens_dropWhile (c : UInt8) : ∀ s : Str, tokens c (s.dropWhile (· == c)) = tokens c s
  | [] => rfl
  | d :: s => by
    by_cases hd : d = c
    · subst hd
      rw [List.dropWhile_cons_of_pos (by simp), tokens_skip, tokens_dropWhile d s]
    · rw [List.dropWhile_cons_of_neg (by simpa using hd)]

theorem tokens_cons {c : UInt8} {t : Str} (hne : t ≠ []) (hc : c ∉ t) :
    tokens c t = [t] ∧ ∀ r, tokens c (t ++ c :: r) = t :: tokens c r := by
  have hsingle : t.splitOn c = [t] :=
    splitOnP_eq_singleton fun x hx => beq_eq_false_iff_ne.mpr fun h => hc (h ▸ hx)
  constructor
  · rw [tokens, hsingle]
    simpa using hne
  · intro r
    have happend : (t ++ c :: r).splitOn c = t.splitOn c ++ r.splitOn c :=
      splitOnP_append_cons t r (beq_self_eq_true c)
    rw [tokens, happend, hsingle, filter_append, tokens]
    simp [hne]

theorem strtokR_tokens (c : UInt8) (s : Str) : (strtokR c s = none ∧ tokens c s = []) ∨
    ∃ t rest, strtokR c s = some (t, rest) ∧ t ≠ [] ∧ c ∉ t ∧ tokens c s = t :: tokens c (rest.getD []) ∧
      (rest.getD []).length < s.length := by
  have hlen : (s.dropWhile (· == c)).length ≤ s.length := (dropWhile_suffix _).length_le
  rw [← tokens_dropWhile c s, strtokR]
  cases hs : s.dropWhile (· == c) with
  | nil => exact .inl ⟨rfl, tokens_nil c⟩
  | cons d s' =>
    have hd : d ≠ c := by
      have h := List.head?_dropWhile_not (· == c) s
      rw [hs] at h
      simpa using h
    have hne : (d :: s').takeWhile (· != c) ≠ [] := by simp [hd]
    have hnot : c ∉ (d :: s').takeWhile (· != c) := fun hmem => by simpa using mem_takeWhile_imp hmem
    have hsplit : (d :: s').takeWhile (· != c) ++ (d :: s').dropWhile (· != c) = d :: s' :=
      takeWhile_append_dropWhile
    rw [hs] at hlen
    refine .inr ⟨_, _, rfl, hne, hnot, ?_⟩
    cases hr : (d :: s').dropWhile (· != c) with
    | nil =>
      rw [hr, append_nil] at hsplit
      rw [hsplit] at hne hnot ⊢
      refine ⟨(tokens_cons hne hnot).1.trans ?_, ?_⟩
      · rw [List.tail?_nil, getD_none, tokens_nil]
      · rw [length_cons] at hlen
        exact Nat.lt_of_lt_of_le (Nat.succ_pos _) hlen
    | cons e r =>
      have he : e = c := by
        have h := List.head?_dropWhile_not (· != c) (d :: s')
        rw [hr] at h
        simpa using h
      rw [hr, he] at hsplit
      refine ⟨?_, ?_⟩
      · exact (congrArg (tokens c) hsplit.symm).trans ((tokens_cons hne hnot).2 r)
      · have hlen' := congrArg List.length hsplit
        rw [length_append, length_cons] at hlen'
        simp only [List.tail?_cons, getD_some]
        omega

theorem paramOf_pairOf {token : Str} {p : Str × Str} (h : pairOf token = some p) (rest : Option Str) :
    paramOf token rest = some p := by
  unfold pairOf at h
  split at h
  · rename_i hpair
    obtain ⟨hmem, hhead⟩ := hpair
    cases h
    obtain ⟨d, token, rfl⟩ := exists_cons_of_ne_nil (ne_nil_of_mem hmem)
    have hd : (d == 61) = false := beq_eq_false_iff_ne.mpr fun h => hhead (congrArg some h)
    have hfirst : (d :: token).dropWhile (· == 61) = d :: token := dropWhile_cons_of_neg (by simp [hd])
    have hne : (d :: token).dropWhile (· != 61) ≠ [] := by
      rw [Ne, dropWhile_eq_nil_iff]
      exact fun hall => absurd (hall 61 hmem) (by decide)
    obtain ⟨e, value, hvalue⟩ := exists_cons_of_ne_nil hne
    simp [paramOf, strtokR, hfirst, hvalue, List.tail?_cons]
  · cases h

/-! ## The loop -/

section

variable {S : Type} (write : Group → Str → Str → S → Option (S × Int))

theorem updateLoop_pairs_tokens (g : Group) : ∀ (fuel : Nat) {s : Str}, s.length < fuel →
    (∀ t ∈ tokens 38 s, (pairOf t).isSome) → ∀ st : S, updateLoop write g fuel s st = writeAll write g (pairs s) st
  | 0, _, h, _, _ => by omega
  | fuel + 1, s, hfuel, hall, st => by
    rcases strtokR_tokens 38 s with ⟨hnone, hnil⟩ | ⟨t, rest, hsome, -, -, htokens, hlt⟩
    · simp [updateLoop, hnone, pairs, hnil, writeAll]
    · rw [htokens, List.forall_mem_cons] at hall
      obtain ⟨p, hp⟩ := isSome_iff_exists.mp hall.1
      have ih := updateLoop_pairs_tokens g fuel (by omega) hall.2
      have hpairs : pairs s = p :: pairs (rest.getD []) := by
        rw [pairs, htokens, filterMap_cons, hp]
        rfl
      simp [updateLoop, hsome, paramOf_pairOf hp, ih, hpairs, writeAll]

end

theorem length_calls (g : Group) : ∀ (fuel : Nat) {s : Str} {t t' : List Call} {r : Int},
    updateLoop (callWrite fun _ => 0) g fuel s t = some (t', r) → t'.length = t.length + (tokens 38 s).length
  | 0, _, _, _, _, h => by cases h
  | fuel + 1, s, t, t', r, h => by
    rcases strtokR_tokens 38 s with ⟨hnone, hnil⟩ | ⟨token, rest, hsome, -, -, htokens, -⟩
    · rw [updateLoop, hnone] at h
      cases h
      rw [hnil]
      rfl
    · simp only [updateLoop, hsome, Option.bind_eq_bind, Option.bind_eq_some_iff] at h
      obtain ⟨⟨name, value⟩, -, ⟨st, ret⟩, hwrite, h⟩ := h
      cases hwrite
      have ih := length_calls g fuel h
      rw [ih, htokens, length_append, length_cons]
      simp only [length_cons, length_nil]
      omega

/-! ## The calls of a query -/

def wanted (query : Str) : List Call :=
  (configsSearchGroupname query).elim [] fun g => (pairs query).map fun p => .write g p.1 p.2

/-- `configs_update` stays inside the query and makes the calls that it asks for, in order and all unless one fails. -/
def AppliesPairs (query : Str) : Prop :=
  ∀ ret : List Call → Int, ∃ t r, configsUpdate (callWrite ret) (bytes "group=" ++ query) [] = some (t, r) ∧
    t <+: wanted query ∧ ((∀ t', t' <+: t → t' ≠ [] → ret t' = 0) → t = wanted query)

theorem configsUpdate_query {S : Type} (write : Group → Str → Str → S → Option (S × Int)) (query : Str) (st : S) :
    configsUpdate write (bytes "group=" ++ query) st = (configsSearchGroupname query).elim (some (st, -1))
      fun g => updateLoop write g (query.length + 1) query st := by
  have hdrop : (bytes "group=" ++ query).drop 6 = query := @drop_left _ (bytes "group=") query
  rw [configsUpdate, strstr_start (prefix_append _ _)]
  dsimp only
  rw [hdrop]
  cases configsSearchGroupname query <;> rfl

theorem AppliesPairs.length_pairs {query : Str} {g : Group} (hg : configsSearchGroupname query = some g)
    (h : AppliesPairs query) : (pairs query).length = (tokens 38 query).length := by
  obtain ⟨t, r, hrun, -, hall⟩ := h fun _ => 0
  rw [configsUpdate_query, hg, elim_some] at hrun
  have hcalls := length_calls g _ hrun
  rw [hall fun _ _ _ => rfl, wanted, hg, elim_some, length_map, length_nil, Nat.zero_add] at hcalls
  exact hcalls

/-- **`configs_update` applies the pairs of the query** exactly if every token is one, or no group is found. -/
theorem configsUpdate_applies_iff (query : Str) : AppliesPairs query ↔ configsSearchGroupname query = none ∨
      ∀ token ∈ tokens 38 query, (61 : UInt8) ∈ token ∧ token.head? ≠ some 61 := by
  have hpairOf : ∀ token, (pairOf token).isSome ↔ (61 : UInt8) ∈ token ∧ token.head? ≠ some 61 := by
    intro token
    rw [pairOf]
    split <;> simp_all
  simp only [← hpairOf]
  cases hg : configsSearchGroupname query with
  | none =>
    refine iff_of_true (fun _ => ⟨[], -1, ?_, nil_prefix, fun _ => ?_⟩) (.inl rfl)
    · rw [configsUpdate_query, hg, elim_none]
    · rw [wanted, hg, elim_none]
  | some g =>
    simp only [reduceCtorEq, false_or]
    constructor
    · intro h
      exact filterMap_length_eq_length.mp (h.length_pairs hg)
    · intro h ret
      obtain ⟨t, r, hrun, hcalls⟩ := writeAll_calls ret g (pairs query) []
      refine ⟨t, r, ?_, ?_⟩
      · rw [configsUpdate_query, hg, elim_some, updateLoop_pairs_tokens _ g _ (by omega) h, hrun, nil_append]
      · rw [wanted, hg, elim_some]
        exact hcalls

theorem configsUpdate_writes_group : ¬ AppliesPairs (bytes "wifi&SSID=cam") := by
  intro h
  obtain ⟨t, r, hrun, hpre, -⟩ := h fun _ => 0
  have heval : configsUpdate (callWrite fun _ => 0) (bytes "group=" ++ bytes "wifi&SSID=cam") [] =
      some ([.write .wifi (bytes "wifi") (bytes "SSID=cam"), .write .wifi (bytes "SSID") (bytes "cam")], 0) := by decide
  cases hrun.symm.trans heval
  exact absurd hpre (by decide)

end NuWicam.Cgi
