import NuWicam.Cgi.Config
import NuWicam.Lib.Disk

/-!
# A configuration file while it is written (`param.c`)

`WriteParamStr` writes a second file, removes the configuration file and renames the second one to it, and looks at the
results of none of the three. `writeParamOps` lists its operations on the disk, for all outcomes (`crashAtomic_iff`).
-/

namespace NuWicam.Cgi

open Lib List Option

/-- What the file system answers to `WriteParamStr`. -/
structure Outcome where
  openConfig : Bool
  openNew : Bool
  /-- the data of each write to the new file, and how much of it is accepted -/
  writes : List (Str × Nat)
  remove : Bool
  rename : Bool

/-- `strNewConfigFilePath` -/
def newPath (path : Str) : Str := path ++ bytes ".new"

theorem newPath_ne (path : Str) : newPath path ≠ path := by
  intro h
  have := congrArg List.length h
  rw [newPath, length_append] at this
  simp [bytes] at this

/-- The operations up to the writes and `fclose`. -/
def copyOps (path : Str) (o : Outcome) : List (FileOp Str UInt8) :=
  [.openRead path true, .create (newPath path) true] ++ o.writes.map (fun w => .write (newPath path) w.1 w.2) ++
    [.close path, .close (newPath path)]

def replaceOps (path : Str) (remove rename : Bool) : List (FileOp Str UInt8) :=
  [.remove path remove, .rename (newPath path) path rename, .sync]

/-- **`WriteParamStr`** as its operations, `none` where its loop writes past the buffer. -/
def writeParamOps (path name value old : Str) (o : Outcome) : Option (List (FileOp Str UInt8)) :=
  if o.openConfig && o.openNew then
    (rewriteLines name value old).map fun _ => copyOps path o ++ replaceOps path o.remove o.rename
  else some [.openRead path o.openConfig, .create (newPath path) o.openNew]

def Outcome.Prints (o : Outcome) (name value old : Str) : Prop :=
  ∀ texts, rewriteLines name value old = some texts → (o.writes.map Prod.fst).flatten = texts.flatten

def Outcome.Short (o : Outcome) : Prop := ∃ w ∈ o.writes, w.2 < w.1.length

def Intact (path name value old : Str) (o : Outcome) (d : Disk Str UInt8) : Prop :=
  (d path = some old ∨ ∃ new, writeParamStr name value old = some new ∧ d path = some new) ∧
    (o.Short → d path = some old)

def CrashAtomic (path name value old : Str) (o : Outcome) (d : Disk Str UInt8) : Prop :=
  ∃ ops, writeParamOps path name value old o = some ops ∧
    ∀ k, Intact path name value old o (FileOp.applyAll d (ops.take k))

section

variable {path name value old : Str} {o : Outcome} {d : Disk Str UInt8}

theorem Intact.of_old (h : d path = some old) : Intact path name value old o d := ⟨.inl h, fun _ => h⟩

theorem spares_copyOps (path : Str) (o : Outcome) : ∀ op ∈ copyOps path o, op.Spares path := by
  have hne := newPath_ne path
  intro op hop
  simp only [copyOps, mem_append, mem_cons, List.mem_map, not_mem_nil, or_false] at hop
  rcases hop with ((rfl | rfl) | ⟨w, -, rfl⟩) | (rfl | rfl)
  · trivial
  · exact fun _ => hne
  · exact hne
  · trivial
  · trivial

theorem intact_of_spares {ops : List (FileOp Str UInt8)} (hold : d path = some old) (h : ∀ op ∈ ops, op.Spares path)
    (k : Nat) : Intact path name value old o (FileOp.applyAll d (ops.take k)) :=
  .of_old ((FileOp.applyAll_spares (fun op hop => h op (mem_of_mem_take hop)) d).trans hold)

theorem applyAll_copyOps (path : Str) (o : Outcome) (d : Disk Str UInt8) :
    FileOp.applyAll d (copyOps path o) (newPath path) = some (FileOp.written o.writes) := by
  have hcreate : FileOp.applyAll d [.openRead path true, .create (newPath path) true] (newPath path) = some [] := by
    simp [FileOp.applyAll, FileOp.apply]
  rw [copyOps, FileOp.applyAll_append, FileOp.applyAll_append]
  exact FileOp.applyAll_writes (newPath path) o.writes hcreate

theorem applyAll_rename (path : Str) (o : Outcome) (d : Disk Str UInt8) :
    FileOp.applyAll d (copyOps path o ++ [.remove path false, .rename (newPath path) path true]) path =
      some (FileOp.written o.writes) := by
  have hne := newPath_ne path
  rw [FileOp.applyAll_append, ← applyAll_copyOps path o d]
  simp [FileOp.applyAll, FileOp.apply, hne.symm]

theorem applyAll_remove (path : Str) (o : Outcome) (d : Disk Str UInt8) :
    FileOp.applyAll d (copyOps path o ++ [.remove path true]) path = none := by
  rw [FileOp.applyAll_append]
  simp [FileOp.applyAll, FileOp.apply]

theorem intact_written_iff (hprints : o.Prints name value old) {texts : List Str}
    (htexts : rewriteLines name value old = some texts) (hd : d path = some (FileOp.written o.writes)) :
    Intact path name value old o d ↔ ¬ o.Short ∨ FileOp.written o.writes = old := by
  constructor
  · rintro ⟨-, hshort⟩
    by_cases h : o.Short
    · exact .inr (some.inj (hd.symm.trans (hshort h)))
    · exact .inl h
  · rintro (hfull | heq)
    · refine ⟨.inr ⟨_, by rw [writeParamStr, htexts]; rfl, ?_⟩, fun h => (hfull h).elim⟩
      rw [hd, FileOp.written_of_full fun w hw => ?_, hprints texts htexts]
      exact Nat.le_of_not_lt fun hlt => hfull ⟨w, hw, hlt⟩
    · exact .of_old (by rw [hd, heq])

theorem replaceOps_cut (ops : List (FileOp Str UInt8)) (path : Str) (remove rename : Bool) :
    ops ++ replaceOps path remove rename =
      (ops ++ [FileOp.remove path remove]) ++ [.rename (newPath path) path rename, .sync] := by
  simp [replaceOps]

theorem intact_after_copy_iff (hold : d path = some old) (hprints : o.Prints name value old) {texts : List Str}
    (htexts : rewriteLines name value old = some texts) : (∀ k, Intact path name value old o
      (FileOp.applyAll d ((copyOps path o ++ replaceOps path false o.rename).take k))) ↔
      o.rename = false ∨ ¬ o.Short ∨ FileOp.written o.writes = old := by
  have hspares : ∀ op ∈ copyOps path o ++ [FileOp.remove path false], op.Spares path := by
    intro op hop
    rcases mem_append.mp hop with hop | hop
    · exact spares_copyOps path o op hop
    · cases mem_singleton.mp hop
      exact nofun
  rw [replaceOps_cut]
  cases hrename : o.rename with
  | false =>
    refine ⟨fun _ => .inl rfl, fun _ k => intact_of_spares hold (fun op hop => ?_) k⟩
    rcases mem_append.mp hop with hop | hop
    · exact hspares op hop
    · simp only [mem_cons, not_mem_nil, or_false] at hop
      rcases hop with rfl | rfl
      · exact nofun
      · trivial
  | true =>
    have hlast : ∀ tail : List (FileOp Str UInt8), (∀ op ∈ tail, op.Spares path) →
        (Intact path name value old o (FileOp.applyAll d ((copyOps path o ++ [FileOp.remove path false]) ++
          .rename (newPath path) path true :: tail)) ↔ ¬ o.Short ∨ FileOp.written o.writes = old) := by
      intro tail htail
      refine intact_written_iff hprints htexts ?_
      have hcut : (copyOps path o ++ [FileOp.remove path false]) ++ .rename (newPath path) path true :: tail =
          (copyOps path o ++ [.remove path false, .rename (newPath path) path true]) ++ tail := by simp
      rw [hcut, FileOp.applyAll_append, FileOp.applyAll_spares htail]
      exact applyAll_rename path o d
    constructor
    · intro h
      have hend := h ((copyOps path o ++ [FileOp.remove path false]).length + 2)
      rw [take_length_add_append] at hend
      exact .inr ((hlast [.sync] (forall_mem_singleton.mpr trivial)).mp hend)
    · intro h k
      have h' := h.resolve_left nofun
      -- either the cut is before `rename`, or `rename` is among the operations
      by_cases hk : k ≤ (copyOps path o ++ [FileOp.remove path false]).length
      · rw [take_append_of_le_length hk]
        exact intact_of_spares hold hspares k
      · obtain ⟨j, rfl⟩ := Nat.exists_eq_add_of_lt (Nat.lt_of_not_le hk)
        rw [Nat.add_assoc, take_length_add_append, take_succ_cons]
        refine (hlast _ fun op hop => ?_).mpr h'
        cases mem_singleton.mp (mem_of_mem_take hop)
        trivial

end

/-- **`WriteParamStr` is crash-atomic** exactly if a file cannot be opened, or `remove` fails and nothing short is renamed. -/
theorem crashAtomic_iff (path name value old : Str) (o : Outcome) (d : Disk Str UInt8) (hold : d path = some old)
    (hprints : o.Prints name value old) : CrashAtomic path name value old o d ↔ (o.openConfig && o.openNew) = false ∨
      LinesFit (fileLines old) ∧ o.remove = false ∧
        (o.rename = false ∨ ¬ o.Short ∨ FileOp.written o.writes = old) := by
  unfold CrashAtomic writeParamOps
  cases hopen : (o.openConfig && o.openNew) with
  | false =>
    refine ⟨fun _ => .inl rfl, fun _ => ⟨_, if_neg nofun, intact_of_spares hold fun op hop => ?_⟩⟩
    simp only [mem_cons, not_mem_nil, or_false] at hop
    rcases hop with rfl | rfl
    · trivial
    · exact fun _ => newPath_ne path
  | true =>
    rw [if_pos rfl, rewriteLines_eq]
    by_cases hfit : LinesFit (fileLines old)
    · have htexts := (rewriteLines_eq name value old).trans (if_pos hfit)
      rw [if_pos hfit, map_some]
      cases hremove : o.remove with
      | true =>
        refine ⟨fun h => ?_, fun h => absurd (h.resolve_left nofun).2.1 nofun⟩
        obtain ⟨ops, hops, h⟩ := h
        cases hops
        have hgone := (h (copyOps path o ++ [FileOp.remove path true]).length).1
        rw [replaceOps_cut, take_left, applyAll_remove] at hgone
        rcases hgone with hnone | ⟨new, -, hnone⟩ <;> cases hnone
      | false =>
        have hiff := intact_after_copy_iff hold hprints htexts
        constructor
        · rintro ⟨ops, hops, h⟩
          cases hops
          exact .inr ⟨hfit, rfl, hiff.mp h⟩
        · intro h
          exact ⟨_, rfl, hiff.mpr (h.resolve_left nofun).2.2⟩
    · rw [if_neg hfit, map_none]
      refine ⟨?_, fun h => absurd (h.resolve_left nofun).1 hfit⟩
      rintro ⟨ops, hops, -⟩
      cases hops

theorem crashAtomic_remove_fails : CrashAtomic (bytes "stream_config") (bytes "BITRATE") (bytes "2000")
    (bytes "BITRATE 1000\n") ⟨true, true, [(bytes "BITRATE 2000\n", 13)], false, true⟩
    (fun p => if p = bytes "stream_config" then some (bytes "BITRATE 1000\n") else none) := by
  have htexts : rewriteLines (bytes "BITRATE") (bytes "2000") (bytes "BITRATE 1000\n") =
      some [bytes "BITRATE 2000\n"] := by decide
  refine (crashAtomic_iff _ _ _ _ _ _ (if_pos rfl) fun texts h => ?_).mpr (.inr ⟨by decide, rfl, .inr (.inl ?_)⟩)
  · cases htexts.symm.trans h
    rfl
  · rintro ⟨w, hw, hlt⟩
    cases mem_singleton.mp hw
    exact absurd hlt (by decide)

theorem crash_after_remove : ¬ CrashAtomic (bytes "stream_config") (bytes "BITRATE") (bytes "2000")
    (bytes "BITRATE 1000\n") ⟨true, true, [(bytes "BITRATE 2000\n", 13)], true, true⟩
    (fun p => if p = bytes "stream_config" then some (bytes "BITRATE 1000\n") else none) := by
  rintro ⟨ops, hops, h⟩
  have htexts : rewriteLines (bytes "BITRATE") (bytes "2000") (bytes "BITRATE 1000\n") =
      some [bytes "BITRATE 2000\n"] := by decide
  have hrun := (if_pos rfl).symm.trans hops
  rw [htexts] at hrun
  cases hrun
  have hgone := applyAll_remove (bytes "stream_config") ⟨true, true, [(bytes "BITRATE 2000\n", 13)], true, true⟩
    (fun p => if p = bytes "stream_config" then some (bytes "BITRATE 1000\n") else none)
  rcases (h 6).1 with hold | ⟨new, -, hnew⟩
  · cases hgone.symm.trans hold
  · cases hgone.symm.trans hnew

end NuWicam.Cgi
