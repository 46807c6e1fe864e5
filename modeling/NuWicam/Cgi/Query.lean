import NuWicam.Cgi.Config

/-!
# Requests to the configuration CGI (`param.c`)

The words `list` and `update` and the names of the groups are looked for in all of the text of a request. The state `S` is
what `WriteParamStr` and `configs_list_all` work on; `none` is where the source follows a `NULL` or reads behind the end of
the query (`configsProcess_routes_iff`).
-/

namespace NuWicam.Cgi

open Lib List Option

/-! ## The source -/

inductive Group
  | wifi
  | stream
deriving DecidableEq, Repr

/-- `g_astrGroupName` -/
def Group.name : Group → Str
  | .wifi => bytes "wifi"
  | .stream => bytes "stream"

def configsSearchGroupname (s : Str) : Option Group := [Group.wifi, .stream].find? fun g => (strstr g.name s).isSome

/-- `strtok_r`: the token, and what follows its delimiter. -/
def strtokR (c : UInt8) (s : Str) : Option (Str × Option Str) :=
  match s.dropWhile (· == c) with
  | [] => none
  | t => some (t.takeWhile (· != c), (t.dropWhile (· != c)).tail?)

/-- The name and the value in a token: without a `=` the value starts behind the `NUL` of the token. -/
def paramOf (token : Str) (rest : Option Str) : Option (Str × Str) :=
  match strtokR 61 token with
  | none => none
  | some (name, some value) => some (name, value)
  | some (name, none) => rest.map fun r => (name, r)

/-- `p + n`, inside the string -/
def advance (n : Nat) (p : Str) : Option Str := if p.length < n then none else some (p.drop n)

/-- `g_i32RetCode`, and whether `g_pcOuputData` is set. -/
structure Processed (S : Type) where
  st : S
  retCode : Int
  listed : Bool

section

variable {S : Type} (write : Group → Str → Str → S → Option (S × Int)) (listAll : Group → S → Option (S × Int))

def updateLoop (g : Group) : Nat → Str → S → Option (S × Int)
  | 0, _, _ => none
  | fuel + 1, s, st =>
    match strtokR 38 s with
    | none => some (st, 0)
    | some (token, rest) => do
      let (name, value) ← paramOf token rest
      let (st, ret) ← write g name value st
      if ret ≠ 0 then pure (st, -1) else updateLoop g fuel (rest.getD []) st

def configsUpdate (s : Str) (st : S) : Option (S × Int) :=
  match strstr (bytes "group=") s with
  | none => some (st, -1)
  | some p =>
    match configsSearchGroupname (p.drop 6) with
    | none => some (st, -1)
    | some g => updateLoop write g ((p.drop 6).length + 1) (p.drop 6) st

def configsList (s : Str) (st : S) : Option (S × Int) :=
  match strstr (bytes "group=") s with
  | none => some (st, -1)
  | some p =>
    match configsSearchGroupname (p.drop 6) with
    | none => some (st, -1)
    | some g => listAll g st

def configsProcess (query : Str) (st : S) : Option (Processed S) :=
  match strstr (bytes "action=") query with
  | none => some ⟨st, -1, false⟩
  | some q =>
    let p := q.drop 7
    if (strstr (bytes "list") p).isSome then do
      let p ← advance 5 p
      let (st, ret) ← configsList listAll p st
      pure ⟨st, -1, ret ≠ -1⟩
    else if (strstr (bytes "update") p).isSome then do
      let p ← advance 7 p
      let (st, ret) ← configsUpdate write p st
      pure ⟨st, ret, false⟩
    else some ⟨st, -1, false⟩

end

/-! ## The parameters of a query -/

inductive Action
  | list
  | update
deriving DecidableEq, Repr

def Action.word : Action → Str
  | .list => bytes "list"
  | .update => bytes "update"

/-- `k=v` -/
def pairText (p : Str × Str) : Str := p.1 ++ 61 :: p.2

/-- `&k1=v1&...&kn=vn` -/
def tailText (ps : List (Str × Str)) : Str := ps.flatMap fun p => 38 :: pairText p

/-- `action=A&group=G&k1=v1&...&kn=vn` -/
def queryText (a : Action) (g : Group) (ps : List (Str × Str)) : Str :=
  bytes "action=" ++ (a.word ++ 38 :: (bytes "group=" ++ (g.name ++ tailText ps)))

def IsPair (p : Str × Str) : Prop := p.1 ≠ [] ∧ (61 : UInt8) ∉ p.1 ∧ (38 : UInt8) ∉ p.1 ∧ (38 : UInt8) ∉ p.2

instance (p : Str × Str) : Decidable (IsPair p) := inferInstanceAs (Decidable (_ ∧ _ ∧ _ ∧ _))

/-- What follows the first token of the query. -/
def restText : List (Str × Str) → Option Str
  | [] => none
  | p :: ps => some (pairText p ++ tailText ps)

theorem restText_cons (p : Str × Str) (ps : List (Str × Str)) : restText (p :: ps) = some (pairText p ++ tailText ps) :=
  rfl

theorem strtokR_eq {c : UInt8} {token : Str} (hne : token ≠ []) (hc : c ∉ token) (rest : Str) :
    strtokR c (token ++ c :: rest) = some (token, some rest) ∧ strtokR c token = some (token, none) := by
  obtain ⟨d, token, rfl⟩ := exists_cons_of_ne_nil hne
  have hd : d ≠ c := fun h => hc (h ▸ mem_cons_self)
  have hpos : ∀ x ∈ d :: token, (x != c) := fun x hx => bne_iff_ne.mpr fun h => hc (h ▸ hx)
  have hfirst : ∀ tail : Str, (d :: tail).dropWhile (· == c) = d :: tail := fun tail =>
    dropWhile_cons_of_neg (by simpa using hd)
  constructor
  · have htake : (d :: (token ++ c :: rest)).takeWhile (· != c) = d :: token := by
      rw [← cons_append, takeWhile_append_of_pos hpos]
      simp
    have hdrop : (d :: (token ++ c :: rest)).dropWhile (· != c) = c :: rest := by
      rw [← cons_append, dropWhile_append_of_pos hpos]
      simp
    simp [strtokR, hfirst, htake, hdrop, List.tail?_cons]
  · have htake : (d :: token).takeWhile (· != c) = d :: token := takeWhile_eq_self_iff.mpr hpos
    have hdrop : (d :: token).dropWhile (· != c) = [] := dropWhile_eq_nil_iff.mpr hpos
    simp only [strtokR, hfirst, htake, hdrop, List.tail?_nil]

theorem strtokR_tailText {token : Str} (hne : token ≠ []) (hamp : (38 : UInt8) ∉ token) (ps : List (Str × Str)) :
    strtokR 38 (token ++ tailText ps) = some (token, restText ps) := by
  cases ps with
  | nil =>
    rw [tailText, flatMap_nil, append_nil]
    exact (strtokR_eq hne hamp []).2
  | cons p ps => exact (strtokR_eq hne hamp _).1

theorem IsPair.token {p : Str × Str} (h : IsPair p) : pairText p ≠ [] ∧ (38 : UInt8) ∉ pairText p := by
  obtain ⟨hne, -, hk, hv⟩ := h
  refine ⟨fun hnil => hne (append_eq_nil_iff.mp hnil).1, fun hmem => ?_⟩
  rcases mem_append.mp hmem with hmem | hmem
  · exact hk hmem
  · rcases mem_cons.mp hmem with heq | hmem
    · cases heq
    · exact hv hmem

theorem paramOf_pairText {p : Str × Str} (h : IsPair p) (rest : Option Str) : paramOf (pairText p) rest = some p := by
  rw [paramOf, pairText, (strtokR_eq h.1 h.2.1 p.2).1]

section

variable {S : Type} (write : Group → Str → Str → S → Option (S × Int))

def writeAll (g : Group) : List (Str × Str) → S → Option (S × Int)
  | [], st => some (st, 0)
  | p :: ps, st => do
    let (st, ret) ← write g p.1 p.2 st
    if ret ≠ 0 then pure (st, -1) else writeAll g ps st

theorem updateLoop_pairs (g : Group) : ∀ (fuel : Nat) {ps : List (Str × Str)}, (∀ p ∈ ps, IsPair p) →
    ((restText ps).getD []).length < fuel → ∀ st : S,
    updateLoop write g fuel ((restText ps).getD []) st = writeAll write g ps st
  | 0, _, _, hlen, _ => by omega
  | fuel + 1, [], _, _, st => rfl
  | fuel + 1, p :: ps, hps, hlen, st => by
    rw [List.forall_mem_cons] at hps
    obtain ⟨hp, hps⟩ := hps
    have htoken := strtokR_tailText hp.token.1 hp.token.2 ps
    have hlt : ((restText ps).getD []).length < fuel := by
      simp only [restText, getD_some, length_append] at hlen
      have hpos := length_pos_iff.mpr hp.token.1
      cases ps with
      | nil => simp only [restText, getD_none, length_nil]; omega
      | cons q qs =>
        simp only [restText, getD_some, length_append, tailText, flatMap_cons, length_cons]
          at hlen ⊢
        omega
    have ih := updateLoop_pairs g fuel hps hlt
    simp [updateLoop, restText_cons, htoken, paramOf_pairText hp, ih, writeAll]

theorem updateLoop_eq (g : Group) {token : Str} (hne : token ≠ []) (hamp : (38 : UInt8) ∉ token)
    (heq : (61 : UInt8) ∉ token) {ps : List (Str × Str)} (hps : ∀ p ∈ ps, IsPair p) (st : S) :
    updateLoop write g ((token ++ tailText ps).length + 1) (token ++ tailText ps) st =
      (restText ps).bind fun r => writeAll write g ((token, r) :: ps) st := by
  have hlt : ((restText ps).getD []).length < (token ++ tailText ps).length := by
    cases ps with
    | nil => simpa [restText, tailText] using length_pos_iff.mpr hne
    | cons p ps =>
      simp only [restText, getD_some, tailText, flatMap_cons, length_append, length_cons]
      omega
  simp only [updateLoop, strtokR_tailText hne hamp, paramOf, (strtokR_eq hne heq []).2, updateLoop_pairs write g _ hps hlt]
  cases restText ps <;> rfl

end

/-! ## Where a request goes -/

def Mentions (word : Str) (ps : List (Str × Str)) : Prop := ∃ p ∈ ps, word <:+: p.1 ∨ word <:+: p.2

instance (word : Str) (ps : List (Str × Str)) : Decidable (Mentions word ps) :=
  decidable_of_iff (ps.any (fun p => (strstr word p.1).isSome || (strstr word p.2).isSome) = true)
    (by simp only [Mentions, List.any_eq_true, Bool.or_eq_true, strstr_isSome_iff])

theorem infix_tailText {word : Str} (hamp : (38 : UInt8) ∉ word) (heq : (61 : UInt8) ∉ word) :
    ∀ (x : Str) (ps : List (Str × Str)), word <:+: x ++ tailText ps ↔ word <:+: x ∨ Mentions word ps
  | x, [] => by simp [tailText, Mentions]
  | x, p :: ps => by
    have ih := infix_tailText hamp heq (pairText p) ps
    rw [tailText, flatMap_cons, cons_append, infix_sep hamp, ← tailText, ih, pairText, infix_sep heq]
    simp [Mentions]

theorem list_found (a : Action) (g : Group) (ps : List (Str × Str)) :
    (strstr (bytes "list") (a.word ++ 38 :: (bytes "group=" ++ (g.name ++ tailText ps)))).isSome ↔
      a = .list ∨ Mentions (bytes "list") ps := by
  have hgroup : bytes "group=" ++ (g.name ++ tailText ps) = bytes "group" ++ 61 :: (g.name ++ tailText ps) := rfl
  have haction : bytes "list" <:+: a.word ↔ a = .list := by cases a <;> decide +kernel
  have hnot : ¬ bytes "list" <:+: bytes "group" ∧ ¬ bytes "list" <:+: g.name := by cases g <;> decide +kernel
  rw [strstr_isSome_iff, infix_sep (by decide), hgroup, infix_sep (by decide), infix_tailText (by decide) (by decide),
    haction]
  simp [hnot.1, hnot.2]

theorem update_found (g : Group) (ps : List (Str × Str)) :
    (strstr (bytes "update") (Action.update.word ++ 38 :: (bytes "group=" ++ (g.name ++ tailText ps)))).isSome = true :=
  strstr_isSome_iff.mpr (prefix_append _ _).isInfix

theorem configsSearchGroupname_eq (s : Str) : configsSearchGroupname s =
    if (strstr Group.wifi.name s).isSome = true then some .wifi
    else if (strstr Group.stream.name s).isSome = true then some .stream else none := by
  simp only [configsSearchGroupname, List.find?_cons, List.find?_nil]
  cases (strstr Group.wifi.name s).isSome <;> cases (strstr Group.stream.name s).isSome <;> rfl

/-- The group that `configs_search_groupname` finds. -/
def foundGroup (g : Group) (ps : List (Str × Str)) : Option Group := configsSearchGroupname (g.name ++ tailText ps)

theorem foundGroup_eq (g : Group) (ps : List (Str × Str)) :
    foundGroup g ps = some g ↔ (g = .stream → ¬ Mentions (bytes "wifi") ps) := by
  have hwifi : (strstr Group.wifi.name (g.name ++ tailText ps)).isSome ↔
      Group.wifi.name <:+: g.name ∨ Mentions (bytes "wifi") ps :=
    strstr_isSome_iff.trans (infix_tailText (by decide) (by decide) g.name ps)
  have hself : (strstr g.name (g.name ++ tailText ps)).isSome :=
    strstr_isSome_iff.mpr (prefix_append _ _).isInfix
  rw [foundGroup, configsSearchGroupname_eq]
  cases g with
  | wifi =>
    rw [if_pos hself]
    simp
  | stream =>
    have hnot : ¬ Group.wifi.name <:+: Group.stream.name := by decide
    by_cases h : Mentions (bytes "wifi") ps
    · rw [if_pos (hwifi.mpr (.inr h))]
      simp [h]
    · rw [if_neg fun hf => (hwifi.mp hf).elim hnot h, if_pos hself]
      simp [h]

theorem foundGroup_isSome (g : Group) (ps : List (Str × Str)) : ∃ g', foundGroup g ps = some g' := by
  rw [← isSome_iff_exists, foundGroup, configsSearchGroupname, List.find?_isSome]
  exact ⟨g, by cases g <;> decide, strstr_isSome_iff.mpr (prefix_append _ _).isInfix⟩

section

variable {S : Type} (write : Group → Str → Str → S → Option (S × Int)) (listAll : Group → S → Option (S × Int))

variable (g : Group) (ps : List (Str × Str))

theorem configsList_eq (st : S) :
    configsList listAll (bytes "group=" ++ (g.name ++ tailText ps)) st = (foundGroup g ps).bind fun g' => listAll g' st := by
  obtain ⟨g', hg'⟩ := foundGroup_isSome g ps
  have hdrop : (bytes "group=" ++ (g.name ++ tailText ps)).drop 6 = g.name ++ tailText ps :=
    @drop_left _ (bytes "group=") _
  rw [configsList, strstr_start (prefix_append _ _)]
  dsimp only
  rw [hdrop, ← foundGroup, hg']
  rfl

theorem configsUpdate_eq {ps : List (Str × Str)} (hps : ∀ p ∈ ps, IsPair p) (st : S) :
    configsUpdate write (bytes "group=" ++ (g.name ++ tailText ps)) st =
      (foundGroup g ps).bind fun g' => (restText ps).bind fun r => writeAll write g' ((g.name, r) :: ps) st := by
  obtain ⟨g', hg'⟩ := foundGroup_isSome g ps
  have hname : g.name ≠ [] ∧ (38 : UInt8) ∉ g.name ∧ (61 : UInt8) ∉ g.name := by cases g <;> decide
  have hdrop : (bytes "group=" ++ (g.name ++ tailText ps)).drop 6 = g.name ++ tailText ps :=
    @drop_left _ (bytes "group=") _
  rw [configsUpdate, strstr_start (prefix_append _ _)]
  dsimp only
  rw [hdrop, ← foundGroup, hg']
  exact updateLoop_eq write g' hname.1 hname.2.1 hname.2.2 hps st

theorem drop_action (a : Action) (g : Group) (ps : List (Str × Str)) :
    (queryText a g ps).drop 7 = a.word ++ 38 :: (bytes "group=" ++ (g.name ++ tailText ps)) :=
  @drop_left _ (bytes "action=") _

theorem configsProcess_list (st : S) : configsProcess write listAll (queryText .list g ps) st =
      (foundGroup g ps).bind fun g' => (listAll g' st).map fun r => ⟨r.1, -1, r.2 ≠ -1⟩ := by
  have hadv : advance 5 (Action.list.word ++ 38 :: (bytes "group=" ++ (g.name ++ tailText ps))) =
      some (bytes "group=" ++ (g.name ++ tailText ps)) := if_neg (by simp [Action.word, bytes])
  rw [configsProcess, strstr_start (s := queryText .list g ps) (prefix_append _ _)]
  dsimp only
  rw [drop_action, if_pos ((list_found .list g ps).mpr (.inl rfl)), hadv]
  obtain ⟨g', hg'⟩ := foundGroup_isSome g ps
  simp only [bind_eq_bind, bind_some, configsList_eq, hg']
  cases listAll g' st <;> rfl

theorem configsProcess_update {ps : List (Str × Str)} (hps : ∀ p ∈ ps, IsPair p) (hno : ¬ Mentions (bytes "list") ps) (st : S) :
    configsProcess write listAll (queryText .update g ps) st =
      (foundGroup g ps).bind fun g' => (restText ps).bind fun r =>
        (writeAll write g' ((g.name, r) :: ps) st).map fun r => ⟨r.1, r.2, false⟩ := by
  have hadv : advance 7 (Action.update.word ++ 38 :: (bytes "group=" ++ (g.name ++ tailText ps))) =
      some (bytes "group=" ++ (g.name ++ tailText ps)) := if_neg (by simp [Action.word, bytes])
  have hlist : ¬ (strstr (bytes "list")
      (Action.update.word ++ 38 :: (bytes "group=" ++ (g.name ++ tailText ps)))).isSome := fun h =>
    ((list_found .update g ps).mp h).elim (fun h => by cases h) hno
  rw [configsProcess, strstr_start (s := queryText .update g ps) (prefix_append _ _)]
  dsimp only
  rw [drop_action, if_neg hlist, if_pos (update_found g ps), hadv]
  obtain ⟨g', hg'⟩ := foundGroup_isSome g ps
  simp only [bind_eq_bind, bind_some, configsUpdate_eq write g hps, hg']
  cases restText ps with
  | none => rfl
  | some r =>
    simp only [bind_some]
    cases writeAll write g' ((g.name, r) :: ps) st <;> rfl

theorem configsProcess_listed {ps : List (Str × Str)} (h : Mentions (bytes "list") ps) {st : S}
    {r : Processed S} (hr : configsProcess write listAll (queryText .update g ps) st = some r) :
    r.st = st ∨ ∃ g' ret, listAll g' st = some (r.st, ret) := by
  rw [configsProcess, strstr_start (s := queryText .update g ps) (prefix_append _ _)] at hr
  dsimp only at hr
  rw [drop_action, if_pos ((list_found .update g ps).mpr (.inr h))] at hr
  simp only [bind_eq_bind, bind_eq_some_iff] at hr
  obtain ⟨p, -, ⟨st', ret⟩, hlist, hpure⟩ := hr
  cases hpure
  unfold configsList at hlist
  split at hlist
  · cases hlist
    exact .inl rfl
  · split at hlist
    · cases hlist
      exact .inl rfl
    · exact .inr ⟨_, ret, hlist⟩

end

/-! ## The calls of a request -/

inductive Call
  | list (g : Group)
  | write (g : Group) (name value : Str)
deriving DecidableEq

section

variable (ret : List Call → Int)

/-- The state is the list of the calls made; `ret` says what the last of them returns. -/
def callWrite (g : Group) (name value : Str) (t : List Call) : Option (List Call × Int) :=
  some (t ++ [.write g name value], ret (t ++ [.write g name value]))

def callList (g : Group) (t : List Call) : Option (List Call × Int) := some (t ++ [.list g], ret (t ++ [.list g]))

end

def writes (g : Group) (ps : List (Str × Str)) : List Call := ps.map fun p => .write g p.1 p.2

/-- The calls of an action on a group: its list, or a write of each parameter to its file -/
def wantedCalls (a : Action) (g : Group) (ps : List (Str × Str)) : List Call :=
  match a with
  | .list => [.list g]
  | .update => writes g ps

/-- `configs_process` makes exactly these calls, in order and all unless one fails, whatever they return. -/
def MakesCalls (a : Action) (g : Group) (ps : List (Str × Str)) (calls : List Call) : Prop :=
  ∀ ret : List Call → Int, ∃ r, configsProcess (callWrite ret) (callList ret) (queryText a g ps) [] = some r ∧
    r.st <+: calls ∧ ((∀ t', t' <+: r.st → t' ≠ [] → ret t' = 0) → r.st = calls)

/-- `configs_process` performs exactly the action. -/
def RoutesTo (a : Action) (g : Group) (ps : List (Str × Str)) : Prop := MakesCalls a g ps (wantedCalls a g ps)

theorem writeAll_calls (ret : List Call → Int) (g : Group) : ∀ (ps : List (Str × Str)) (t : List Call),
    ∃ t' r, writeAll (callWrite ret) g ps t = some (t ++ t', r) ∧ t' <+: writes g ps ∧
      ((∀ t'', t'' <+: t ++ t' → t'' ≠ [] → ret t'' = 0) → t' = writes g ps)
  | [], t => ⟨[], 0, by simp [writeAll], List.prefix_rfl, fun _ => rfl⟩
  | p :: ps, t => by
    by_cases hret : ret (t ++ [.write g p.1 p.2]) = 0
    · obtain ⟨t', r, hrun, hpre, hall⟩ := writeAll_calls ret g ps (t ++ [.write g p.1 p.2])
      rw [append_assoc] at hrun hall
      refine ⟨.write g p.1 p.2 :: t', r, ?_, ?_, fun h => ?_⟩
      · rw [writeAll, callWrite]
        simp only [bind_eq_bind, bind_some, hret, ne_eq, not_true_eq_false, if_false]
        exact hrun
      · exact cons_prefix_cons.mpr ⟨rfl, hpre⟩
      · rw [writes, map_cons, ← writes, ← hall h]
    · refine ⟨[.write g p.1 p.2], -1, ?_, ?_, fun h => ?_⟩
      · rw [writeAll, callWrite]
        simp [hret]
      · exact cons_prefix_cons.mpr ⟨rfl, nil_prefix⟩
      · exact absurd (h _ prefix_rfl (by simp)) hret

section

variable {g g' : Group} {ps : List (Str × Str)} {calls : List Call}

theorem MakesCalls.succeeding {a : Action} (h : MakesCalls a g ps calls) :
    ∃ r, configsProcess (callWrite fun _ => 0) (callList fun _ => 0) (queryText a g ps) [] = some r ∧ r.st = calls := by
  obtain ⟨r, hr, -, hall⟩ := h fun _ => 0
  exact ⟨r, hr, hall fun _ _ _ => rfl⟩

theorem routesTo_list_iff (hg' : foundGroup g ps = some g') : RoutesTo .list g ps ↔ g' = g := by
  have hrun : ∀ ret : List Call → Int, configsProcess (callWrite ret) (callList ret) (queryText .list g ps) [] =
      some ⟨[.list g'], -1, ret [.list g'] ≠ -1⟩ := by
    intro ret
    rw [configsProcess_list, hg']
    rfl
  constructor
  · intro h
    obtain ⟨r, hr, hcalls⟩ := h.succeeding
    cases hr.symm.trans (hrun _)
    cases hcalls
    rfl
  · rintro rfl ret
    exact ⟨_, hrun ret, prefix_rfl, fun _ => rfl⟩

theorem MakesCalls.unique {a : Action} {calls' : List Call} (h : MakesCalls a g ps calls) (h' : MakesCalls a g ps calls') :
    calls = calls' := by
  obtain ⟨r, hr, rfl⟩ := h.succeeding
  obtain ⟨r', hr', rfl⟩ := h'.succeeding
  cases hr.symm.trans hr'
  rfl

theorem not_mentions_list {qs : List (Str × Str)} (h : MakesCalls .update g ps (writes g' qs)) (hne : qs ≠ []) :
    ¬ Mentions (bytes "list") ps := by
  intro hment
  obtain ⟨q, qs, rfl⟩ := exists_cons_of_ne_nil hne
  obtain ⟨r, hr, hcalls⟩ := h.succeeding
  rcases configsProcess_listed _ _ g hment hr with hnil | ⟨g₁, ret, hlist⟩
  · cases hcalls.symm.trans hnil
  · have hst : [] ++ [Call.list g₁] = r.st := (Prod.mk.inj (Option.some.inj hlist)).1
    cases hcalls.symm.trans hst.symm

theorem makesCalls_update (hps : ∀ p ∈ ps, IsPair p) (hg' : foundGroup g ps = some g')
    (hno : ¬ Mentions (bytes "list") ps) {rest : Str} (hrest : restText ps = some rest) :
    MakesCalls .update g ps (writes g' ((g.name, rest) :: ps)) := by
  intro ret
  obtain ⟨t, r, hwrite, hpre, hall⟩ := writeAll_calls ret g' ((g.name, rest) :: ps) []
  refine ⟨⟨t, r, false⟩, ?_, hpre, hall⟩
  rw [configsProcess_update _ _ g hps hno, hg', bind_some, hrest, bind_some, hwrite]
  rfl

theorem not_routesTo_update (hps : ∀ p ∈ ps, IsPair p) : ¬ RoutesTo .update g ps := by
  intro h
  obtain ⟨g', hg'⟩ := foundGroup_isSome g ps
  cases ps with
  | nil =>
    -- the value of the name is read behind the end of the query
    obtain ⟨r, hr, -⟩ := h.succeeding
    rw [configsProcess_update _ _ g hps (by simp [Mentions]), hg'] at hr
    cases hr
  | cons p ps =>
    have hno := not_mentions_list h (cons_ne_nil p ps)
    have hcalls := congrArg List.length (h.unique (makesCalls_update hps hg' hno (restText_cons p ps)))
    simp [wantedCalls, writes] at hcalls

end

/-- **Where a request goes**: a list is performed exactly unless a parameter makes it one of the other group; an update never
is, since the name of the group is written as if it were a parameter, and its other calls are right unless a parameter makes it
a list or an update of the other group. -/
theorem configsProcess_routes_iff (a : Action) (g : Group) (ps : List (Str × Str)) (hps : ∀ p ∈ ps, IsPair p) :
    (RoutesTo a g ps ↔ a = .list ∧ (g = .stream → ¬ Mentions (bytes "wifi") ps)) ∧
    ∀ rest, restText ps = some rest → (MakesCalls .update g ps (writes g ((g.name, rest) :: ps)) ↔
      ¬ Mentions (bytes "list") ps ∧ (g = .stream → ¬ Mentions (bytes "wifi") ps)) := by
  obtain ⟨g', hg'⟩ := foundGroup_isSome g ps
  have hfound : g' = g ↔ (g = .stream → ¬ Mentions (bytes "wifi") ps) := by
    rw [← foundGroup_eq, hg', Option.some.injEq]
  rw [← hfound]
  refine ⟨?_, fun rest hrest => ⟨fun h => ?_, ?_⟩⟩
  · cases a with
    | list => rw [routesTo_list_iff hg', and_iff_right rfl]
    | update => exact iff_of_false (not_routesTo_update hps) fun h => by cases h.1
  · have hno := not_mentions_list h (cons_ne_nil _ _)
    refine ⟨hno, ?_⟩
    cases h.unique (makesCalls_update hps hg' hno hrest)
    rfl
  · rintro ⟨hno, rfl⟩
    exact makesCalls_update hps hg' hno hrest

theorem routes_playlist : RoutesTo .list .stream [(bytes "SSID", bytes "playlist"), (bytes "group", bytes "update")] ∧
    MakesCalls .update .wifi [(bytes "SSID", bytes "home")]
      [.write .wifi (bytes "wifi") (bytes "SSID=home"), .write .wifi (bytes "SSID") (bytes "home")] :=
  ⟨(configsProcess_routes_iff .list .stream _ (by decide)).1.mpr ⟨rfl, fun _ => by decide⟩,
    ((configsProcess_routes_iff .update .wifi [(bytes "SSID", bytes "home")] (by decide)).2 _ rfl).mpr
      ⟨by decide, fun h => by cases h⟩⟩

theorem update_taken_for_list : ¬ RoutesTo .update .wifi [(bytes "SSID", bytes "playlist")] := by
  intro h
  obtain ⟨r, hr, hcalls⟩ := h.succeeding
  have heval : (configsProcess (callWrite fun _ => 0) (callList fun _ => 0)
      (queryText .update .wifi [(bytes "SSID", bytes "playlist")]) []).map Processed.st = some [.list .wifi] := by decide
  rw [hr, map_some, hcalls] at heval
  cases heval

/-! ## The files -/

abbrev Files := Group → Option Str

/-- `WriteParamStr` on the file of a group, where nothing fails. -/
def writeFile (g : Group) (name value : Str) (files : Files) : Option (Files × Int) :=
  match files g with
  | none => some (files, -1)
  | some file => (writeParamStr name value file).map fun file' => (Function.update files g (some file'), 0)

end NuWicam.Cgi
