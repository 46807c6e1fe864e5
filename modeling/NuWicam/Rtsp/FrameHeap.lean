import Mathlib.Data.Fintype.Card
import Mathlib.Data.List.FinRange
import NuWicam.Lib.Run
import NuWicam.Lib.Slots
import NuWicam.Lib.Tally

/-!
# The frame heap

`init_frame_heap` fills a ring with frames; `new_frame` takes one from it, and the `unref_frame` that drops the last reference
puts it back. A clone has a reference on its original. A step of the machine is one critical section, or what one thread does
with a frame nobody else has. `FrameHeap.tokens`: who has which frame; `Account.Ok`: what the tokens of one can be.
-/

namespace NuWicam.Rtsp

open Lib List Function

/-! ## The heap and the calls -/

inductive FrameTask (n : Nat)
  /-- `clone_frame`: set the destructor of the new frame `f` -/
  | link (f orig : Fin n)
  /-- `clone_frame`: `ref_frame(orig)`, and return `f` -/
  | refOrig (f orig : Fin n)
  /-- `unref_frame`: count down -/
  | dec (f : Fin n)
  /-- `unref_frame`: the count is down, call the destructor if there is one -/
  | fin (f : Fin n)
  /-- `unref_frame`: put the frame back -/
  | put (f : Fin n)
  deriving DecidableEq

structure FrameHeap (n : Nat) where
  slot : Nat → Option (Fin n)
  take : Nat
  put : Nat
  /-- `unref_frame` found a frame at `frame_heap_put` and returned with the mutex locked -/
  jammed : Bool
  refCount : Fin n → Int
  /-- `clone_destructor` with its data -/
  destructor : Fin n → Option (Fin n)
  /-- the frame on which a clone has a reference -/
  cloneOf : Fin n → Option (Fin n)
  /-- the references that callers have -/
  held : List (Fin n)
  threads : List (List (FrameTask n))

/-- Without a frame it writes through a null pointer. What `malloc` leaves in the frames is any `refCount` and `destructor`. -/
def initFrameHeap (n threads : Nat) (refCount : Fin n → Int) (destructor : Fin n → Option (Fin n)) :
    Option (FrameHeap n) :=
  if 0 < n then
    some
      { slot := fun k => (List.finRange n)[k]?, take := 0, put := 0, jammed := false, refCount, destructor,
        cloneOf := fun _ => none, held := [], threads := List.replicate threads [] }
  else none

inductive FrameCall (n : Nat)
  | newFrame
  | refFrame (f : Fin n)
  | cloneFrame (orig : Fin n)
  | unrefFrame (f : Fin n)
  | goOn

namespace FrameHeap

variable {n : Nat}

/-- `new_frame`: the frame or `NULL`, and the heap after. -/
def newFrame (h : FrameHeap n) : Option (Fin n) × FrameHeap n :=
  match h.slot h.take with
  | some f =>
    (some f, { h with
      slot := update h.slot h.take none, take := (h.take + 1) % n,
      refCount := update h.refCount f 1, destructor := update h.destructor f none })
  | none => (none, h)

def setThread (h : FrameHeap n) (t : Nat) (tasks : List (FrameTask n)) : FrameHeap n :=
  { h with threads := h.threads.set t tasks }

/-- `rest` is what the thread has to do after it. -/
def goOn (h : FrameHeap n) (t : Nat) (rest : List (FrameTask n)) : FrameTask n → Option (FrameHeap n)
  | .link f orig =>
    some ({ h with destructor := update h.destructor f (some orig) }.setThread t (.refOrig f orig :: rest))
  | .refOrig f orig =>
    some ({ h with
      refCount := update h.refCount orig (h.refCount orig + 1), held := f :: orig :: h.held,
      cloneOf := update h.cloneOf f (some orig) }.setThread t rest)
  | .dec f =>
    let r := h.refCount f - 1
    some ({ h with refCount := update h.refCount f r }.setThread t (if r > 0 then rest else .fin f :: rest))
  | .fin f =>
    match h.destructor f with
    -- `clone_destructor` drops the reference on the original and returns 0
    | some orig =>
      some ({ h with
        refCount := update h.refCount f 1,
        cloneOf := update h.cloneOf f none }.setThread t (.dec orig :: .put f :: rest))
    | none => some (h.setThread t (.put f :: rest))
  | .put f =>
    if h.jammed then none
    else
      match h.slot h.put with
      | some _ => some ({ h with jammed := true }.setThread t rest)
      | none =>
        some ({ h with slot := update h.slot h.put (some f), put := (h.put + 1) % n }.setThread t rest)

def call (h : FrameHeap n) (t : Nat) : FrameCall n → Option (FrameHeap n)
  | .newFrame =>
    if h.jammed then none
    else
      match h.newFrame with
      | (some f, h') => some { h' with held := f :: h'.held }
      | (none, h') => some h'
  | .refFrame f =>
    some { h with refCount := update h.refCount f (h.refCount f + 1), held := f :: h.held }
  -- the caller keeps its reference on the original until the call returns
  | .cloneFrame orig =>
    if h.jammed then none
    else
      match h.newFrame with
      | (some f, h') => some ({ h' with held := h'.held.erase orig }.setThread t [.link f orig])
      | (none, h') => some h'
  | .unrefFrame f => some ({ h with held := h.held.erase f }.setThread t [.dec f])
  | .goOn => none

/-- `none` if the thread has to wait, is in another call, or is in none. -/
def step (h : FrameHeap n) (a : Nat × FrameCall n) : Option (FrameHeap n) :=
  match h.threads[a.1]?, a.2 with
  | some [], c => h.call a.1 c
  | some (task :: rest), .goOn => h.goOn a.1 rest task
  | _, _ => none

def Disciplined (h : FrameHeap n) (a : Nat × FrameCall n) : Prop :=
  match a.2 with
  | .refFrame f | .cloneFrame f | .unrefFrame f => f ∈ h.held
  | .newFrame | .goOn => True

instance (h : FrameHeap n) : ∀ a, Decidable (h.Disciplined a)
  | (_, .refFrame f) => inferInstanceAs (Decidable (f ∈ h.held))
  | (_, .cloneFrame f) => inferInstanceAs (Decidable (f ∈ h.held))
  | (_, .unrefFrame f) => inferInstanceAs (Decidable (f ∈ h.held))
  | (_, .newFrame) => isTrue trivial
  | (_, .goOn) => isTrue trivial

end FrameHeap

/-! ## Who has which frame -/

inductive Hold
  | ref
  | fresh
  | fin
  | put
  deriving DecidableEq

/-- In `clone_frame` a thread has the caller's reference on the original. -/
def FrameTask.tokens {n : Nat} : FrameTask n → List (Hold × Fin n)
  | .link f orig => [(.ref, orig), (.fresh, f)]
  | .refOrig f orig => [(.ref, orig), (.fresh, f)]
  | .dec f => [(.ref, f)]
  | .fin f => [(.fin, f)]
  | .put f => [(.put, f)]

namespace FrameHeap

variable {n : Nat}

/-- The callers' references, what the calls in progress have, and the clones' references. -/
def tokens (h : FrameHeap n) : List (Hold × Fin n) :=
  h.held.map (Prod.mk .ref) ++ h.threads.flatMap (List.flatMap FrameTask.tokens) ++
    (List.finRange n).flatMap fun g => (h.cloneOf g).toList.map (Prod.mk .ref)

def Outstanding (h : FrameHeap n) (f : Fin n) : Prop := f ∈ h.tokens.map (·.2)

instance (h : FrameHeap n) (f : Fin n) : Decidable (h.Outstanding f) := inferInstanceAs (Decidable (f ∈ _))

def outstanding (h : FrameHeap n) : List (Fin n) := (List.finRange n).filter fun f => h.Outstanding f

/-- The frames in the free ring, from `frame_heap_take` once around. -/
def inRing (h : FrameHeap n) : List (Fin n) := slotsFrom n h.slot h.take

end FrameHeap

/-- Whether a frame is in the ring, how many tokens of each kind are out, and its fields. -/
structure Account (n : Nat) where
  free : Bool
  tally : Hold → Nat
  refCount : Int
  destructor : Option (Fin n)
  cloneOf : Option (Fin n)

def Hold.only (k : Hold) (r : Nat) : Hold → Nat := fun k' => if k' = k then r else 0

namespace Account

variable {n : Nat} {a : Account n}

inductive Ok : Account n → Prop
  | free (c : Int) (d : Option (Fin n)) : Ok ⟨true, fun _ => 0, c, d, none⟩
  | fresh (d : Option (Fin n)) : Ok ⟨false, Hold.fresh.only 1, 1, d, none⟩
  | live (r : Nat) (d : Option (Fin n)) : Ok ⟨false, Hold.ref.only (r + 1), r + 1, d, d⟩
  | dying (c : Int) (d : Option (Fin n)) : Ok ⟨false, Hold.fin.only 1, c, d, d⟩
  | dead (c : Int) (d : Option (Fin n)) : Ok ⟨false, Hold.put.only 1, c, d, none⟩

theorem Ok.of_free (h : a.Ok) (hf : a.free) : ∃ c d, a = ⟨true, fun _ => 0, c, d, none⟩ := by
  cases h <;> first | exact ⟨_, _, rfl⟩ | cases hf

theorem Ok.of_fresh (h : a.Ok) (hf : 0 < a.tally .fresh) : ∃ d, a = ⟨false, Hold.fresh.only 1, 1, d, none⟩ := by
  cases h <;> first | exact ⟨_, rfl⟩ | cases hf

theorem Ok.of_ref (h : a.Ok) (hf : 0 < a.tally .ref) :
    ∃ (r : Nat) (d : _), a = ⟨false, Hold.ref.only (r + 1), r + 1, d, d⟩ := by
  cases h <;> first | exact ⟨_, _, rfl⟩ | cases hf

theorem Ok.of_fin (h : a.Ok) (hf : 0 < a.tally .fin) : ∃ c d, a = ⟨false, Hold.fin.only 1, c, d, d⟩ := by
  cases h <;> first | exact ⟨_, _, rfl⟩ | cases hf

theorem Ok.of_put (h : a.Ok) (hf : 0 < a.tally .put) : ∃ c d, a = ⟨false, Hold.put.only 1, c, d, none⟩ := by
  cases h <;> first | exact ⟨_, _, rfl⟩ | cases hf

theorem Ok.of_not_free (h : a.Ok) (hf : a.free = false) : ∃ k, 0 < a.tally k := by
  cases h with
  | free => cases hf
  | fresh => exact ⟨.fresh, Nat.one_pos⟩
  | live r => exact ⟨.ref, Nat.succ_pos r⟩
  | dying => exact ⟨.fin, Nat.one_pos⟩
  | dead => exact ⟨.put, Nat.one_pos⟩

end Account

namespace FrameHeap

variable {n : Nat} {h h' : FrameHeap n} {free free' : List (Fin n)}

def account (h : FrameHeap n) (free : List (Fin n)) (g : Fin n) : Account n where
  free := decide (g ∈ free)
  tally k := h.tokens.count (k, g)
  refCount := h.refCount g
  destructor := h.destructor g
  cloneOf := h.cloneOf g

def Linked (threads : List (List (FrameTask n))) (destructor : Fin n → Option (Fin n)) : Prop :=
  ∀ tasks ∈ threads, ∀ f orig, .refOrig f orig ∈ tasks → destructor f = some orig

/-- **The heap keeps its books**, with `free` the frames in the ring. -/
structure Inv (h : FrameHeap n) (free : List (Fin n)) : Prop where
  ring : Slots n h.slot h.take free
  put_eq : h.put = (h.take + free.length) % n
  nodup : free.Nodup
  ok : ∀ g, (h.account free g).Ok
  linked : Linked h.threads h.destructor
  unjammed : h.jammed = false

/-! ## Tokens change hands -/

theorem count_tokens (h : FrameHeap n) (x : Hold × Fin n) : h.tokens.count x = (h.held.map (Prod.mk .ref)).count x +
      (h.threads.flatMap (List.flatMap FrameTask.tokens)).count x +
      ((List.finRange n).flatMap fun g => (h.cloneOf g).toList.map (Prod.mk .ref)).count x := by
  rw [tokens, count_append, count_append]

/-- From `h` to `h'` the tokens `out` are given up and `got` are handed out. -/
def Trades (h h' : FrameHeap n) (out got : List (Hold × Fin n)) : Prop :=
  ∀ x, h'.tokens.count x + out.count x = h.tokens.count x + got.count x

section Trades

variable {f orig g : Fin n} {t : Nat} {rest : List (FrameTask n)} {out got : List (Hold × Fin n)}

theorem trades_setThread (tasks tasks' : List (FrameTask n)) (ht : h.threads[t]? = some (tasks ++ rest)) :
    Trades h (h.setThread t (tasks' ++ rest)) (tasks.flatMap FrameTask.tokens) (tasks'.flatMap FrameTask.tokens) := by
  intro x
  have hset := count_flatMap_set (List.flatMap FrameTask.tokens) (tasks' ++ rest) x ht
  rw [flatMap_append, flatMap_append, count_append, count_append] at hset
  rw [count_tokens, count_tokens]
  simp only [setThread]
  omega

theorem trades_get (h : FrameHeap n) (f : Fin n) : Trades h { h with held := f :: h.held } [] [(.ref, f)] := by
  intro x
  rw [count_tokens, count_tokens]
  dsimp only
  rw [map_cons, count_cons, count_nil, count_cons, count_nil]
  omega

theorem trades_drop (hf : f ∈ h.held) : Trades h { h with held := h.held.erase f } [(.ref, f)] [] := by
  intro x
  have hperm := ((perm_cons_erase hf).map (Prod.mk Hold.ref)).count_eq x
  rw [map_cons, count_cons] at hperm
  rw [count_tokens, count_tokens, count_nil, count_cons, count_nil]
  dsimp only
  omega

theorem trades_cloneOf (h : FrameHeap n) (f : Fin n) (v : Option (Fin n)) :
    Trades h { h with cloneOf := update h.cloneOf f v } ((h.cloneOf f).toList.map (Prod.mk .ref))
      (v.toList.map (Prod.mk .ref)) := by
  intro x
  have hupd := count_flatMap_update (fun o : Option (Fin n) => o.toList.map (Prod.mk Hold.ref)) h.cloneOf f v x
    (nodup_finRange n) (mem_finRange f)
  rw [count_tokens, count_tokens]
  dsimp only at hupd ⊢
  omega

theorem Trades.trans {h'' : FrameHeap n} {out' got' : List (Hold × Fin n)} (h₁ : Trades h h' out got)
    (h₂ : Trades h' h'' out' got') : Trades h h'' (out ++ out') (got ++ got') := by
  intro x
  have e₁ := h₁ x
  have e₂ := h₂ x
  rw [count_append, count_append]
  omega

theorem Trades.cancel (common : List (Hold × Fin n)) (ht : Trades h h' (common ++ out) (common ++ got)) :
    Trades h h' out got := by
  intro x
  have e := ht x
  rw [count_append, count_append] at e
  omega

theorem Trades.ok (ht : Trades h h' out got) {a b : Account n} (hacc : h.account free g = a) (hb : b.Ok)
    (hfree : decide (g ∈ free') = b.free) (htally : ∀ k, a.tally k + got.count (k, g) = b.tally k + out.count (k, g))
    (hcount : h'.refCount g = b.refCount) (hdestr : h'.destructor g = b.destructor)
    (hclone : h'.cloneOf g = b.cloneOf) : (h'.account free' g).Ok := by
  have hnew : h'.account free' g = b := by
    obtain ⟨f, tally, c, d, o⟩ := b
    rw [account, Account.mk.injEq]
    refine ⟨hfree, funext fun k => ?_, hcount, hdestr, hclone⟩
    have hold : h.tokens.count (k, g) = a.tally k := congrFun (congrArg Account.tally hacc) k
    have htrade := ht (k, g)
    have hbalance := htally k
    dsimp only at hbalance ⊢
    omega
  rw [hnew]
  exact hb

theorem Trades.ok_other (ht : Trades h h' out got) (hok : (h.account free g).Ok) (hfree : g ∈ free' ↔ g ∈ free)
    (hnot : ∀ x ∈ out ++ got, x.2 ≠ g) (hcount : h'.refCount g = h.refCount g)
    (hdestr : h'.destructor g = h.destructor g) (hclone : h'.cloneOf g = h.cloneOf g) : (h'.account free' g).Ok := by
  refine ht.ok (rfl : h.account free g = _) hok (decide_eq_decide.2 hfree) (fun k => ?_) hcount hdestr hclone
  rw [count_eq_zero_of_not_mem fun hm => hnot _ (mem_append_left _ hm) rfl,
    count_eq_zero_of_not_mem fun hm => hnot _ (mem_append_right _ hm) rfl]

theorem Trades.ok_all (f : Fin n) (ht : Trades h h' out got) (hok : ∀ g, (h.account free g).Ok)
    (habout : ∀ x ∈ out ++ got, x.2 = f)
    (hsame : ∀ g ≠ f, (g ∈ free' ↔ g ∈ free) ∧ h'.refCount g = h.refCount g ∧ h'.destructor g = h.destructor g ∧
      h'.cloneOf g = h.cloneOf g) (hnew : (h'.account free' f).Ok) (g : Fin n) : (h'.account free' g).Ok := by
  by_cases hg : g = f
  · rw [hg]
    exact hnew
  · obtain ⟨hfree, hcount, hdestr, hclone⟩ := hsame g hg
    exact ht.ok_other (hok g) hfree (fun x hx heq => hg (heq ▸ habout x hx)) hcount hdestr hclone

end Trades

/-! ## The steps -/

section Steps

variable {f orig : Fin n} {t : Nat} {task : FrameTask n} {rest tasks : List (FrameTask n)}

theorem token_of_held (hf : f ∈ h.held) : 0 < h.tokens.count (.ref, f) :=
  count_pos_iff.2 (mem_append_left _ (mem_append_left _ (List.mem_map_of_mem hf)))

theorem token_of_task (hmem : tasks ∈ h.threads) (htask : task ∈ tasks) {x : Hold × Fin n} (hx : x ∈ task.tokens) :
    0 < h.tokens.count x :=
  count_pos_iff.2 (mem_append_left _ (mem_append_right _
    (mem_flatMap.2 ⟨tasks, hmem, mem_flatMap.2 ⟨task, htask, hx⟩⟩)))

theorem token_of_top (ht : h.threads[t]? = some (task :: rest)) {x : Hold × Fin n} (hx : x ∈ task.tokens) :
    0 < h.tokens.count x :=
  token_of_task (List.mem_of_getElem? ht) mem_cons_self hx

theorem Linked.set {threads : List (List (FrameTask n))} {destructor : Fin n → Option (Fin n)}
    (hl : Linked threads destructor) (hnew : ∀ f orig, .refOrig f orig ∈ tasks → destructor f = some orig) :
    Linked (threads.set t tasks) destructor := by
  intro l hmem f orig hl'
  rcases mem_or_eq_of_mem_set hmem with hmem | rfl
  · exact hl l hmem f orig hl'
  · exact hnew f orig hl'

theorem linked_update {v : Option (Fin n)} (hl : Linked h.threads h.destructor)
    (hnone : h.tokens.count (.fresh, f) = 0) : Linked h.threads (update h.destructor f v) := by
  intro tasks hmem f' orig htask
  have hne : f' ≠ f := by
    rintro rfl
    have hpos := token_of_task hmem htask (x := (.fresh, f')) (mem_cons_of_mem _ mem_cons_self)
    omega
  rw [update_of_ne hne]
  exact hl tasks hmem f' orig htask

theorem Inv.linked_rest (hi : Inv h free) (ht : h.threads[t]? = some (task :: rest)) (f orig : Fin n)
    (hmem : .refOrig f orig ∈ rest) : h.destructor f = some orig :=
  hi.linked _ (List.mem_of_getElem? ht) f orig (mem_cons_of_mem _ hmem)

theorem Inv.refFrame (hi : Inv h free) (hf : f ∈ h.held) :
    Inv { h with refCount := update h.refCount f (h.refCount f + 1), held := f :: h.held } free := by
  have htr : Trades h { h with refCount := update h.refCount f (h.refCount f + 1), held := f :: h.held } []
    [(.ref, f)] := trades_get h f
  obtain ⟨r, d, hacc⟩ := (hi.ok f).of_ref (token_of_held hf)
  have hcount : h.refCount f = r + 1 := congrArg Account.refCount hacc
  refine { hi with ok := htr.ok_all f hi.ok (by simp) (fun g hg => ⟨.rfl, update_of_ne hg _ _, rfl, rfl⟩) ?_ }
  refine htr.ok hacc (.live (r + 1) d) (congrArg Account.free hacc) (fun k => ?_) ?_
    (congrArg Account.destructor hacc) (congrArg Account.cloneOf hacc)
  · cases k <;> simp [Hold.only]
  · simp [hcount]

theorem Inv.unrefFrame (hi : Inv h free) (ht : h.threads[t]? = some []) (hf : f ∈ h.held) :
    Inv ({ h with held := h.held.erase f }.setThread t [.dec f]) free := by
  have hdrop : Trades h { h with held := h.held.erase f } [(.ref, f)] [] := trades_drop hf
  have hcall : Trades { h with held := h.held.erase f } ({ h with held := h.held.erase f }.setThread t [.dec f]) []
    [(.ref, f)] := trades_setThread (h := { h with held := h.held.erase f }) [] [.dec f] ht
  have htr : Trades h ({ h with held := h.held.erase f }.setThread t [.dec f]) [] [] :=
    (hdrop.trans hcall).cancel [(.ref, f)]
  exact { hi with
    ok := fun g => htr.ok_other (hi.ok g) .rfl (by simp) rfl rfl rfl
    linked := hi.linked.set (by simp) }

theorem Inv.dec (hi : Inv h free) (ht : h.threads[t]? = some (.dec f :: rest)) :
    Inv ({ h with refCount := update h.refCount f (h.refCount f - 1) }.setThread t
      (if h.refCount f - 1 > 0 then rest else .fin f :: rest)) free := by
  obtain ⟨r, d, hacc⟩ := (hi.ok f).of_ref (token_of_top ht mem_cons_self)
  have hcount : h.refCount f = r + 1 := congrArg Account.refCount hacc
  have hdown : h.refCount f - 1 = r := by omega
  rw [hdown]
  cases r with
  | zero =>
    have htr : Trades h
      ({ h with refCount := update h.refCount f ((0 : Nat) : Int) }.setThread t (.fin f :: rest))
      [(.ref, f)] [(.fin, f)] := trades_setThread [.dec f] [.fin f] ht
    refine { hi with
      ok := htr.ok_all f hi.ok (by simp) (fun g hg => ⟨.rfl, update_of_ne hg _ _, rfl, rfl⟩) ?_
      linked := hi.linked.set (by simpa using hi.linked_rest ht) }
    refine htr.ok hacc (.dying 0 d) (congrArg Account.free hacc) (fun k => ?_) (update_self _ _ _)
      (congrArg Account.destructor hacc) (congrArg Account.cloneOf hacc)
    cases k <;> simp [Hold.only]
  | succ r =>
    have htr : Trades h ({ h with refCount := update h.refCount f ((r + 1 : Nat) : Int) }.setThread t rest)
      [(.ref, f)] [] := trades_setThread [.dec f] [] ht
    rw [if_pos (by omega)]
    refine { hi with
      ok := htr.ok_all f hi.ok (by simp) (fun g hg => ⟨.rfl, update_of_ne hg _ _, rfl, rfl⟩) ?_
      linked := hi.linked.set (hi.linked_rest ht) }
    refine htr.ok hacc (.live r d) (congrArg Account.free hacc) (fun k => ?_) (update_self _ _ _)
      (congrArg Account.destructor hacc) (congrArg Account.cloneOf hacc)
    cases k <;> simp [Hold.only]

theorem Inv.fin_clone (hi : Inv h free) (ht : h.threads[t]? = some (.fin f :: rest)) (hd : h.destructor f = some orig) :
    Inv ({ h with
      refCount := update h.refCount f 1,
      cloneOf := update h.cloneOf f none }.setThread t (.dec orig :: .put f :: rest)) free := by
  obtain ⟨c, d, hacc⟩ := (hi.ok f).of_fin (token_of_top ht mem_cons_self)
  have hdestr : h.destructor f = d := congrArg Account.destructor hacc
  have hclone : h.cloneOf f = some orig := by
    rw [← hd, hdestr]
    exact congrArg Account.cloneOf hacc
  have hgive : Trades h { h with cloneOf := update h.cloneOf f none } [(.ref, orig)] [] := by
    have hgive := trades_cloneOf h f none
    rwa [hclone] at hgive
  have hcall : Trades { h with cloneOf := update h.cloneOf f none } ({ h with
      refCount := update h.refCount f 1,
      cloneOf := update h.cloneOf f none }.setThread t (.dec orig :: .put f :: rest))
      [(.fin, f)] [(.ref, orig), (.put, f)] :=
    trades_setThread (h := { h with cloneOf := update h.cloneOf f none }) [.fin f] [.dec orig, .put f] ht
  have htr : Trades h _ [(.fin, f)] [(.put, f)] := (hgive.trans hcall).cancel [(.ref, orig)]
  refine { hi with
    ok := htr.ok_all f hi.ok (by simp)
      (fun g hg => ⟨.rfl, update_of_ne hg _ _, rfl, update_of_ne hg _ _⟩) ?_
    linked := hi.linked.set (by simpa using hi.linked_rest ht) }
  refine htr.ok hacc (.dead 1 d) (congrArg Account.free hacc) (fun k => ?_) (update_self _ _ _) hdestr
    (update_self _ _ _)
  cases k <;> simp [Hold.only]

theorem Inv.fin_plain (hi : Inv h free) (ht : h.threads[t]? = some (.fin f :: rest)) (hd : h.destructor f = none) :
    Inv (h.setThread t (.put f :: rest)) free := by
  obtain ⟨c, d, hacc⟩ := (hi.ok f).of_fin (token_of_top ht mem_cons_self)
  have hdestr : h.destructor f = d := congrArg Account.destructor hacc
  have hclone : h.cloneOf f = d := congrArg Account.cloneOf hacc
  have htr : Trades h (h.setThread t (.put f :: rest)) [(.fin, f)] [(.put, f)] :=
    trades_setThread [.fin f] [.put f] ht
  refine { hi with
    ok := htr.ok_all f hi.ok (by simp) (fun g hg => ⟨.rfl, rfl, rfl, rfl⟩) ?_
    linked := hi.linked.set (by simpa using hi.linked_rest ht) }
  refine htr.ok hacc (.dead c d) (congrArg Account.free hacc) (fun k => ?_) (congrArg Account.refCount hacc) hdestr
    (hclone.trans (hdestr.symm.trans hd))
  cases k <;> simp [Hold.only]

theorem Inv.link (hi : Inv h free) (ht : h.threads[t]? = some (.link f orig :: rest)) :
    Inv ({ h with destructor := update h.destructor f (some orig) }.setThread t (.refOrig f orig :: rest))
      free := by
  obtain ⟨d, hacc⟩ := (hi.ok f).of_fresh (token_of_top ht (mem_cons_of_mem _ mem_cons_self))
  have hone : h.tokens.count (.fresh, f) = 1 := congrFun (congrArg Account.tally hacc) .fresh
  have hcall : Trades h
      ({ h with destructor := update h.destructor f (some orig) }.setThread t (.refOrig f orig :: rest))
      [(.ref, orig), (.fresh, f)] [(.ref, orig), (.fresh, f)] := trades_setThread [.link f orig] [.refOrig f orig] ht
  have htr : Trades h _ [] [] := hcall.cancel [(.ref, orig), (.fresh, f)]
  refine { hi with
    ok := htr.ok_all f hi.ok (by simp) (fun g hg => ⟨.rfl, rfl, update_of_ne hg _ _, rfl⟩) ?_
    linked := ?_ }
  · exact htr.ok hacc (.fresh (some orig)) (congrArg Account.free hacc) (fun _ => rfl) (congrArg Account.refCount hacc)
      (update_self _ _ _) (congrArg Account.cloneOf hacc)
  · -- no other thread works on the new frame
    have hgone : (h.setThread t rest).tokens.count (.fresh, f) = 0 := by
      have hout := trades_setThread [.link f orig] [] ht (.fresh, f)
      simp [hone, FrameTask.tokens] at hout
      exact hout
    have hrest : Linked (h.threads.set t rest) (update h.destructor f (some orig)) :=
      linked_update (h := h.setThread t rest) (hi.linked.set (hi.linked_rest ht)) hgone
    have hlt : t < h.threads.length := (List.getElem?_eq_some_iff.1 ht).1
    have hset : Linked ((h.threads.set t rest).set t (.refOrig f orig :: rest))
        (update h.destructor f (some orig)) := by
      refine hrest.set fun f' orig' hmem => ?_
      rcases mem_cons.1 hmem with heq | hmem
      · cases heq
        exact update_self _ _ _
      · exact hrest rest (mem_set hlt rest) f' orig' hmem
    rwa [set_set] at hset

theorem Inv.refOrig (hi : Inv h free) (ht : h.threads[t]? = some (.refOrig f orig :: rest)) : Inv ({ h with
      refCount := update h.refCount orig (h.refCount orig + 1), held := f :: orig :: h.held,
      cloneOf := update h.cloneOf f (some orig) }.setThread t rest) free := by
  obtain ⟨d, hacc⟩ := (hi.ok f).of_fresh (token_of_top ht (mem_cons_of_mem _ mem_cons_self))
  obtain ⟨r, d', hacc'⟩ := (hi.ok orig).of_ref (token_of_top ht mem_cons_self)
  have hne : orig ≠ f := by
    rintro rfl
    rw [hacc] at hacc'
    cases congrFun (congrArg Account.tally hacc') .fresh
  have hclone : Trades h { h with cloneOf := update h.cloneOf f (some orig) } [] [(.ref, orig)] := by
    have hgive := trades_cloneOf h f (some orig)
    rwa [show h.cloneOf f = none from congrArg Account.cloneOf hacc] at hgive
  have hget := (trades_get { h with cloneOf := update h.cloneOf f (some orig) } orig).trans
    (trades_get { h with cloneOf := update h.cloneOf f (some orig), held := orig :: h.held } f)
  have hcall := trades_setThread
    (h := { h with cloneOf := update h.cloneOf f (some orig), held := f :: orig :: h.held })
    [.refOrig f orig] [] ht
  have htr : Trades h ({ h with
      refCount := update h.refCount orig (h.refCount orig + 1), held := f :: orig :: h.held,
      cloneOf := update h.cloneOf f (some orig) }.setThread t rest) [(.fresh, f)] [(.ref, orig), (.ref, f)] :=
    ((hclone.trans hget).trans hcall).cancel [(.ref, orig)]
  refine { hi with ok := fun g => ?_, linked := hi.linked.set (hi.linked_rest ht) }
  by_cases hf : g = f
  · subst hf
    refine htr.ok hacc (.live 0 (some orig)) (congrArg Account.free hacc) (fun k => ?_) ?_
      (hi.linked _ (List.mem_of_getElem? ht) g orig mem_cons_self) (update_self _ _ _)
    · cases k <;> simp [Hold.only, hne]
    · exact (update_of_ne hne.symm _ _).trans (congrArg Account.refCount hacc)
  · by_cases ho : g = orig
    · subst ho
      have hcount : h.refCount g = r + 1 := congrArg Account.refCount hacc'
      refine htr.ok hacc' (.live (r + 1) d') (congrArg Account.free hacc') (fun k => ?_) ?_
        (congrArg Account.destructor hacc') ((update_of_ne hf _ _).trans (congrArg Account.cloneOf hacc'))
      · cases k <;> simp [Hold.only, hne.symm]
      · exact (update_self _ _ _).trans (by rw [hcount]; rfl)
    · refine htr.ok_other (hi.ok g) .rfl ?_ (update_of_ne ho _ _) rfl (update_of_ne hf _ _)
      simp [Ne.symm hf, Ne.symm ho]

theorem Inv.put (hi : Inv h free) (ht : h.threads[t]? = some (.put f :: rest)) : h.slot h.put = none ∧
    Inv ({ h with slot := update h.slot h.put (some f), put := (h.put + 1) % n }.setThread t rest)
      (free ++ [f]) := by
  obtain ⟨c, d, hacc⟩ := (hi.ok f).of_put (token_of_top ht mem_cons_self)
  have hnot : f ∉ free := of_decide_eq_false (congrArg Account.free hacc)
  have hlt : free.length < n := by
    have hcard := (nodup_cons.2 ⟨hnot, hi.nodup⟩).length_le_card
    rwa [Fintype.card_fin] at hcard
  have htr : Trades h
      ({ h with slot := update h.slot h.put (some f), put := (h.put + 1) % n }.setThread t rest)
      [(.put, f)] [] := trades_setThread [.put f] [] ht
  refine ⟨hi.put_eq ▸ hi.ring.slot_cursor hlt,
    { hi with ring := ?_, put_eq := ?_, nodup := ?_, ok := ?_, linked := ?_ }⟩
  · rw [hi.put_eq]
    exact hi.ring.push hlt f
  · rw [hi.put_eq, Slots.cursor_push, length_append, length_singleton]
    rfl
  · exact hi.nodup.append (nodup_singleton f) (disjoint_singleton.2 hnot)
  · refine htr.ok_all f hi.ok (by simp) (fun g hg => ⟨by simp [hg], rfl, rfl, rfl⟩) ?_
    refine htr.ok hacc (.free c d) (by simp) (fun k => ?_) (congrArg Account.refCount hacc)
      (congrArg Account.destructor hacc) (congrArg Account.cloneOf hacc)
    cases k <;> simp [Hold.only]
  · exact hi.linked.set (hi.linked_rest ht)

theorem Inv.take {k : Hold} (hi : Inv h free) (hs : h.slot h.take = some f) (htr : Trades h h' [] [(k, f)])
    (hb : Account.Ok ⟨false, k.only 1, 1, none, (none : Option (Fin n))⟩)
    (hslot : h'.slot = update h.slot h.take none) (htake : h'.take = (h.take + 1) % n) (hput : h'.put = h.put)
    (hjam : h'.jammed = h.jammed) (hcount : h'.refCount = update h.refCount f 1)
    (hdestr : h'.destructor = update h.destructor f none) (hclone : h'.cloneOf = h.cloneOf)
    (hlinked : Linked h.threads (update h.destructor f none) → Linked h'.threads h'.destructor) : ∃ free', Inv h' free' := by
  have hhead : free.head? = some f := hi.ring.head.symm.trans hs
  obtain ⟨free', rfl⟩ : ∃ free', free = f :: free' := by
    cases free with
    | nil => cases hhead
    | cons g free' => exact ⟨free', by cases hhead; rfl⟩
  obtain ⟨hnot, hnodup⟩ := nodup_cons.1 hi.nodup
  obtain ⟨c, d, hacc⟩ := (hi.ok f).of_free (by simp [account])
  refine ⟨free', ?_, ?_, hnodup, ?_, ?_, hjam.trans hi.unjammed⟩
  · rw [hslot, htake]
    exact hi.ring.pop
  · rw [hput, htake, hi.put_eq, Slots.cursor_pop]
    rfl
  · refine htr.ok_all f hi.ok (by simp) (fun g hg => ?_) ?_
    · rw [hcount, hdestr, hclone, update_of_ne hg, update_of_ne hg]
      exact ⟨by simp [hg], rfl, rfl, rfl⟩
    · refine htr.ok hacc hb (by simpa using hnot) (fun k' => ?_) ?_ ?_ ?_
      · cases k <;> cases k' <;> simp [Hold.only]
      · rw [hcount, update_self]
      · rw [hdestr, update_self]
      · rw [hclone]
        exact congrArg Account.cloneOf hacc
  · exact hlinked (linked_update hi.linked (congrFun (congrArg Account.tally hacc) .fresh))

theorem newFrame_some (hs : h.slot h.take = some f) : h.newFrame = (some f, { h with
    slot := update h.slot h.take none, take := (h.take + 1) % n,
    refCount := update h.refCount f 1, destructor := update h.destructor f none }) := by
  simp [newFrame, hs]

theorem newFrame_none (hs : h.slot h.take = none) : h.newFrame = (none, h) := by
  simp [newFrame, hs]

theorem Inv.call {c : FrameCall n} (hi : Inv h free) (ht : h.threads[t]? = some []) (hd : h.Disciplined (t, c))
    (hs : h.call t c = some h') : ∃ free', Inv h' free' := by
  cases c with
  | newFrame =>
    simp only [FrameHeap.call, hi.unjammed] at hs
    cases hslot : h.slot h.take with
    | none =>
      rw [newFrame_none hslot] at hs
      cases hs
      exact ⟨free, hi⟩
    | some f =>
      rw [newFrame_some hslot] at hs
      cases hs
      exact hi.take hslot (trades_get h f) (.live 0 none) rfl rfl rfl rfl rfl rfl rfl id
  | refFrame f =>
    cases hs
    exact ⟨free, hi.refFrame hd⟩
  | cloneFrame orig =>
    simp only [FrameHeap.call, hi.unjammed] at hs
    cases hslot : h.slot h.take with
    | none =>
      rw [newFrame_none hslot] at hs
      cases hs
      exact ⟨free, hi⟩
    | some f =>
      rw [newFrame_some hslot] at hs
      cases hs
      have hcall := trades_setThread (h := { h with held := h.held.erase orig }) [] [.link f orig] ht
      have htr : Trades h ({ h with held := h.held.erase orig }.setThread t [.link f orig]) [] [(.fresh, f)] :=
        ((trades_drop hd).trans hcall).cancel [(.ref, orig)]
      exact hi.take hslot htr (.fresh none) rfl rfl rfl rfl rfl rfl rfl fun hl => hl.set (by simp)
  | unrefFrame f =>
    cases hs
    exact ⟨free, hi.unrefFrame ht hd⟩
  | goOn => cases hs

theorem Inv.goOn (hi : Inv h free) (ht : h.threads[t]? = some (task :: rest)) (hs : h.goOn t rest task = some h') :
    ∃ free', Inv h' free' := by
  cases task with
  | link f orig =>
    cases hs
    exact ⟨free, hi.link ht⟩
  | refOrig f orig =>
    cases hs
    exact ⟨free, hi.refOrig ht⟩
  | dec f =>
    cases hs
    exact ⟨free, hi.dec ht⟩
  | fin f =>
    cases hdestr : h.destructor f with
    | none =>
      simp only [FrameHeap.goOn, hdestr] at hs
      cases hs
      exact ⟨free, hi.fin_plain ht hdestr⟩
    | some orig =>
      simp only [FrameHeap.goOn, hdestr] at hs
      cases hs
      exact ⟨free, hi.fin_clone ht hdestr⟩
  | put f =>
    obtain ⟨hslot, hput⟩ := hi.put ht
    simp only [FrameHeap.goOn] at hs
    rw [if_neg (by simp [hi.unjammed]), hslot] at hs
    cases hs
    exact ⟨free ++ [f], hput⟩

/-- **Every step that keeps to the references keeps the books.** -/
theorem Inv.step {a : Nat × FrameCall n} (hi : Inv h free) (hd : h.Disciplined a) (hs : h.step a = some h') :
    ∃ free', Inv h' free' := by
  obtain ⟨t, c⟩ := a
  cases ht : h.threads[t]? with
  | none => simp [FrameHeap.step, ht] at hs
  | some tasks =>
    cases tasks with
    | nil => exact hi.call ht hd (by simpa only [FrameHeap.step, ht] using hs)
    | cons task rest =>
      cases c with
      | goOn => exact hi.goOn ht (by simpa only [FrameHeap.step, ht] using hs)
      | _ => simp [FrameHeap.step, ht] at hs

end Steps

/-! ## Every frame is in one place -/

theorem inv_initFrameHeap {threads : Nat} {refCount : Fin n → Int} {destructor : Fin n → Option (Fin n)}
    (hinit : initFrameHeap n threads refCount destructor = some h) : Inv h (List.finRange n) := by
  unfold initFrameHeap at hinit
  split at hinit
  · next hpos =>
    cases hinit
    have hnone : ∀ tasks ∈ List.replicate threads ([] : List (FrameTask n)), tasks = [] :=
      fun tasks hmem => eq_of_mem_replicate hmem
    refine ⟨Slots.full length_finRange hpos, ?_, nodup_finRange n, fun g => ?_, ?_, rfl⟩
    · simp
    · have hcalls : (List.replicate threads ([] : List (FrameTask n))).flatMap (List.flatMap FrameTask.tokens) = [] :=
        flatMap_eq_nil_iff.2 fun tasks hmem => by rw [hnone tasks hmem, flatMap_nil]
      have hclones : (List.finRange n).flatMap (fun _ => ([] : List (Hold × Fin n))) = [] :=
        flatMap_eq_nil_iff.2 fun _ _ => rfl
      convert Account.Ok.free (refCount g) (destructor g) using 1
      simp [account, tokens, hcalls, hclones]
    · intro tasks hmem f orig htask
      rw [hnone tasks hmem] at htask
      cases htask
  · cases hinit

/-- **What the heap is for**: the frames in the ring and the outstanding ones are all frames, each once; `new_frame` returns
`NULL` only if all are outstanding; `frame_heap_put` never is at a frame. -/
structure Conserved (h : FrameHeap n) : Prop where
  conserved : (h.inRing ++ h.outstanding).Perm (List.finRange n)
  null : h.newFrame.1 = none → ∀ f, h.Outstanding f
  unjammed : h.jammed = false

theorem Inv.inRing_eq (hi : Inv h free) : h.inRing = free := hi.ring.slotsFrom_eq

theorem Inv.outstanding_iff (hi : Inv h free) (f : Fin n) : h.Outstanding f ↔ f ∉ free := by
  constructor
  · intro hout hfree
    obtain ⟨⟨k, g⟩, hmem, heq⟩ := List.mem_map.1 hout
    obtain rfl : g = f := heq
    obtain ⟨c, d, hacc⟩ := (hi.ok g).of_free (decide_eq_true hfree)
    have hzero : h.tokens.count (k, g) = 0 := congrFun (congrArg Account.tally hacc) k
    exact absurd hmem (count_eq_zero.1 hzero)
  · intro hnot
    obtain ⟨k, hpos⟩ := (hi.ok f).of_not_free (decide_eq_false hnot)
    exact List.mem_map.2 ⟨(k, f), count_pos_iff.1 hpos, rfl⟩

theorem Inv.conserved (hi : Inv h free) : Conserved h where
  conserved := by
    rw [hi.inRing_eq]
    have hout : h.outstanding.Nodup := (nodup_finRange n).filter _
    have hdisj : free.Disjoint h.outstanding := fun f hfree hmem =>
      (hi.outstanding_iff f).1 (of_decide_eq_true (mem_filter.1 hmem).2) hfree
    refine (perm_ext_iff_of_nodup (hi.nodup.append hout hdisj) (nodup_finRange n)).2 fun f => ?_
    simp only [mem_append, outstanding, mem_filter, mem_finRange, decide_eq_true_eq, true_and,
      hi.outstanding_iff, iff_true]
    exact Decidable.em _
  null hnull f := by
    refine (hi.outstanding_iff f).2 ?_
    cases hslot : h.slot h.take with
    | none =>
      have hnil : free = [] := List.head?_eq_none_iff.1 (hi.ring.head.symm.trans hslot)
      rw [hnil]
      simp
    | some g =>
      rw [newFrame_some hslot] at hnull
      cases hnull
  unjammed := hi.unjammed

end FrameHeap

/-- **The frame heap conserves its frames** in every interleaving of any number of threads. -/
theorem frame_heap_conserved (n threads : Nat) (refCount : Fin n → Int) (destructor : Fin n → Option (Fin n))
    {h : FrameHeap n} (hinit : initFrameHeap n threads refCount destructor = some h)
    (acts : List (Nat × FrameCall n)) (hd : EachStep FrameHeap.step FrameHeap.Disciplined h acts) :
    Always FrameHeap.step FrameHeap.Conserved h acts := by
  have hinv : Always FrameHeap.step (fun h => ∃ free, FrameHeap.Inv h free) h acts :=
    always_of_eachStep (fun s a s' ⟨free, hi⟩ hd hs => hi.step hd hs) ⟨_, FrameHeap.inv_initFrameHeap hinit⟩ hd
  exact hinv.mono fun s ⟨free, hi⟩ => hi.conserved

theorem frame_heap_conserved_clone : ∃ h : FrameHeap 2, initFrameHeap 2 2 (fun _ => 0) (fun _ => none) = some h ∧
    let acts := [(0, .newFrame), (0, .cloneFrame 0), (0, .goOn), (0, .goOn), (1, .newFrame), (1, .unrefFrame 0),
      (0, .unrefFrame 1), (0, .goOn), (1, .goOn), (0, .goOn), (0, .goOn), (0, .goOn), (0, .goOn), (0, .goOn)]
    EachStep FrameHeap.step FrameHeap.Disciplined h acts ∧ Always FrameHeap.step FrameHeap.Conserved h acts ∧
    (run FrameHeap.step h (acts.take 4)).map FrameHeap.outstanding = some [0, 1] ∧
    (run FrameHeap.step h acts).map FrameHeap.inRing = some [0, 1] :=
  ⟨_, rfl, by decide, frame_heap_conserved 2 2 (fun _ => 0) (fun _ => none) rfl _ (by decide), by decide, by decide⟩

end NuWicam.Rtsp
