import NuWicam.Rtsp.HandlerBufs

/-!
# Which location a URI finds (`rtsp.c`)

`node_find_location` takes the first location whose path is a prefix of the URI's path, if `loc->path[len]` is a slash or `0`.
But `len` is the length of the stripped path of the URI, not that of `loc->path`, so this byte may be behind the `NUL`
(`lookup_by_strings_iff`).
-/

namespace NuWicam.Rtsp

open Lib Bool

/-! ## What the lookup should do -/

/-- Without the track, if that is asked for, and then without a slash at the end. -/
def strippedPath (path : Str) (track : Bool) : Str := path.take (baseLen path track)

/-- The memory behind the strings is not in it. -/
def RtspLocation.strings (loc : RtspLocation) : Str × Str × Str × Str × SourceId :=
  (loc.path, loc.realm, loc.username, loc.password, loc.source)

def AtSlash (p base : Str) : Prop := p <+: base ∧ (base[p.length]? = some 47 ∨ p.getLast? = some 47)

/-- The lookup finds only a location with the URI's path or one above it, and the same one whatever is stored behind the
strings of the locations. -/
def LooksUpByStrings (locs : List RtspLocation) (uri : Str) (track : Bool) : Prop :=
  ∀ locs' : List RtspLocation, locs'.map RtspLocation.strings = locs.map RtspLocation.strings →
    (∀ loc n, findRtspLocation locs' uri false track = some (some (loc, n)) →
      ∃ path, getLocalPath uri = some path ∧
        (loc.path = strippedPath path track ∨ AtSlash loc.path (strippedPath path track))) ∧
    (findRtspLocation locs' uri false track).map (Option.map (Prod.map RtspLocation.strings id)) =
      (findRtspLocation locs uri false track).map (Option.map (Prod.map RtspLocation.strings id))

def firstAbove (locs : List RtspLocation) (path : Str) : Option RtspLocation := locs.find? fun loc => hasPfx loc.path path

def FirstIsExact (locs : List RtspLocation) (uri : Str) (track : Bool) : Prop :=
  ∀ path loc, getLocalPath uri = some path → firstAbove locs path = some loc → loc.path = strippedPath path track

/-! ## The byte that is looked at -/

section Byte

variable {path : Str} {track : Bool} {loc : RtspLocation}

theorem trackOf_cut (path : Str) :
    (trackOf path).2 ≤ path.length ∧ ((trackOf path).2 < path.length → path[(trackOf path).2]? = some 47) := by
  refine ⟨trackOf_len path, fun hlt => ?_⟩
  by_cases hname : ∃ base, TrackPath path base
  · obtain ⟨base, hbase⟩ := hname
    rw [trackOf_trackPath hbase]
    obtain ⟨s, rfl, -⟩ := hbase
    rw [List.getElem?_append_right (by omega), Nat.sub_self]
    rfl
  · rw [trackOf_noTrack fun base hbase => hname ⟨base, hbase⟩] at hlt
    exact absurd hlt (by omega)

theorem baseLen_cut (path : Str) (track : Bool) :
    baseLen path track ≤ path.length ∧ (baseLen path track < path.length → path[baseLen path track]? = some 47) := by
  have hlen : ∀ n, n ≤ path.length → (n < path.length → path[n]? = some 47) →
      (if 1 < n ∧ path.getD (n - 1) 0 = 47 then n - 1 else n) ≤ path.length ∧
        ((if 1 < n ∧ path.getD (n - 1) 0 = 47 then n - 1 else n) < path.length →
          path[if 1 < n ∧ path.getD (n - 1) 0 = 47 then n - 1 else n]? = some 47) := by
    intro n hle hcut
    split
    · rename_i hslash
      have hlt : n - 1 < path.length := by omega
      refine ⟨by omega, fun _ => ?_⟩
      have hget := hslash.2
      rw [List.getD_eq_getElem?_getD, List.getElem?_eq_getElem hlt, Option.getD_some] at hget
      rw [List.getElem?_eq_getElem hlt, hget]
    · exact ⟨hle, hcut⟩
  unfold baseLen
  cases track with
  | false => exact hlen path.length (by omega) fun h => absurd h (by omega)
  | true => exact hlen (trackOf path).2 (trackOf_cut path).1 (trackOf_cut path).2

theorem pathAt_exact (h : loc.path.length = baseLen path track) : loc.pathAt (baseLen path track) = 0 := by
  unfold RtspLocation.pathAt
  rw [if_pos (by omega), ← h]
  simp

theorem pathAt_longer (hpfx : loc.path <+: path) (h : baseLen path track < loc.path.length) :
    loc.pathAt (baseLen path track) = 47 := by
  have hcut := (baseLen_cut path track).2 (Nat.lt_of_lt_of_le h hpfx.length_le)
  obtain ⟨rest, rfl⟩ := hpfx
  rw [List.getElem?_append_left h] at hcut
  unfold RtspLocation.pathAt
  rw [if_pos (by omega), List.getD_eq_getElem?_getD, hcut]
  rfl

theorem pathAt_shorter (h : loc.path.length < baseLen path track) :
    loc.pathAt (baseLen path track) = loc.after (baseLen path track) := if_neg (Nat.not_le.mpr h)

end Byte

/-! ## The first prefix -/

section Lookup

variable {locs locs' : List RtspLocation} {path uri : Str} {track : Bool} {loc : RtspLocation}

def taken (path : Str) (len : Nat) (loc : RtspLocation) : Bool :=
  hasPfx loc.path path && (loc.pathAt len == 47 || loc.pathAt len == 0)

theorem taken_of_length (hpfx : loc.path <+: path) (h : baseLen path track ≤ loc.path.length) :
    taken path (baseLen path track) loc = true := by
  have hbyte : loc.pathAt (baseLen path track) = 47 ∨ loc.pathAt (baseLen path track) = 0 := by
    rcases Nat.lt_or_eq_of_le h with hlt | heq
    · exact .inl (pathAt_longer hpfx hlt)
    · exact .inr (pathAt_exact heq.symm)
  rw [taken, and_eq_true_iff]
  refine ⟨List.isPrefixOf_iff_prefix.mpr hpfx, ?_⟩
  rcases hbyte with hbyte | hbyte
  · simp [hbyte]
  · simp [hbyte]

theorem eq_stripped (hpfx : loc.path <+: path) (h : loc.path.length = baseLen path track) :
    loc.path = strippedPath path track := by
  rw [strippedPath, ← h]
  exact List.prefix_iff_eq_take.mp hpfx

theorem length_stripped (path : Str) (track : Bool) : (strippedPath path track).length = baseLen path track := by
  rw [strippedPath, List.length_take]
  exact Nat.min_eq_left (baseLen_cut path track).1

theorem lookup_eq (hp : getLocalPath uri = some path) (locs : List RtspLocation) (track : Bool) :
    findRtspLocation locs uri false track =
      some ((locs.find? (taken path (baseLen path track))).map fun loc =>
        (loc, if track then (trackOf path).1 else -1)) := by
  rw [findRtspLocation_of_path hp, if_neg (by simp)]
  rfl

theorem firstAbove_pos {a : RtspLocation} (h : hasPfx a.path path) (locs : List RtspLocation) :
    firstAbove (a :: locs) path = some a := by
  unfold firstAbove
  rw [List.find?_cons, h]

theorem firstAbove_neg {a : RtspLocation} (h : ¬ hasPfx a.path path) (locs : List RtspLocation) :
    firstAbove (a :: locs) path = firstAbove locs path := by
  unfold firstAbove
  rw [List.find?_cons, eq_false_iff.mpr h]

theorem firstAbove_pfx (h : firstAbove locs path = some loc) : loc.path <+: path := by
  unfold firstAbove at h
  have hpfx := List.find?_some h
  exact List.isPrefixOf_iff_prefix.mp hpfx

theorem firstAbove_strings (h : locs'.map RtspLocation.strings = locs.map RtspLocation.strings) (path : Str) :
    (firstAbove locs' path).map RtspLocation.strings = (firstAbove locs path).map RtspLocation.strings := by
  have hmap : ∀ l : List RtspLocation, (firstAbove l path).map RtspLocation.strings =
      (l.map RtspLocation.strings).find? fun s => hasPfx s.1 path := by
    intro l
    rw [List.find?_map]
    rfl
  rw [hmap, hmap, h]

theorem find_taken_of_exact (hexact : ∀ loc, firstAbove locs path = some loc → loc.path = strippedPath path track) :
    locs.find? (taken path (baseLen path track)) = firstAbove locs path := by
  induction locs with
  | nil => rfl
  | cons a locs ih =>
    by_cases ha : hasPfx a.path path
    · have hlen : a.path.length = baseLen path track := by
        rw [hexact a (firstAbove_pos ha locs), length_stripped]
      have htaken := taken_of_length (List.isPrefixOf_iff_prefix.mp ha) (Nat.le_of_eq hlen.symm)
      rw [firstAbove_pos ha, List.find?_cons_of_pos htaken]
    · have hnot : ¬ taken path (baseLen path track) a := by
        intro h
        exact ha (and_eq_true_iff.mp h).1
      rw [firstAbove_neg ha] at hexact ⊢
      rw [List.find?_cons_of_neg hnot]
      exact ih hexact

def RtspLocation.filled (v : UInt8) (loc : RtspLocation) : RtspLocation := { loc with after := fun _ => v }

theorem strings_filled (v : UInt8) (locs : List RtspLocation) :
    (locs.map (RtspLocation.filled v)).map RtspLocation.strings = locs.map RtspLocation.strings := by
  rw [List.map_map]
  rfl

theorem length_of_taken_one (h : taken path (baseLen path track) (loc.filled 1)) : baseLen path track ≤ loc.path.length := by
  by_contra hlt
  have hbyte : (loc.filled 1).pathAt (baseLen path track) = 1 := pathAt_shorter (Nat.not_le.mp hlt)
  rw [taken, hbyte] at h
  exact absurd (and_eq_true_iff.mp h).2 (by decide)

theorem find_taken_zero (h : firstAbove locs path = some loc) :
    (locs.map (RtspLocation.filled 0)).find? (taken path (baseLen path track)) = some (loc.filled 0) := by
  have htaken : ∀ a : RtspLocation, taken path (baseLen path track) (a.filled 0) = hasPfx a.path path := by
    intro a
    by_cases ha : hasPfx a.path path
    · rw [ha]
      rcases Nat.lt_or_ge a.path.length (baseLen path track) with hlt | hge
      · have hbyte : (a.filled 0).pathAt (baseLen path track) = 0 := pathAt_shorter hlt
        rw [taken, hbyte, and_eq_true_iff]
        exact ⟨ha, rfl⟩
      · exact taken_of_length (List.isPrefixOf_iff_prefix.mp ha) hge
    · rw [eq_false_iff.mpr ha, taken, and_eq_false_iff]
      exact .inl (eq_false_iff.mpr ha)
  have hfun : taken path (baseLen path track) ∘ RtspLocation.filled 0 = fun a => hasPfx a.path path := funext htaken
  rw [List.find?_map, hfun]
  exact congrArg (Option.map _) h

theorem firstIsExact_of_strings (h : LooksUpByStrings locs uri track) : FirstIsExact locs uri track := by
  intro path loc hp hfirst
  have hpfx := firstAbove_pfx hfirst
  -- with `0` behind every path the lookup returns this location
  obtain ⟨hname, hzero⟩ := h _ (strings_filled 0 locs)
  rw [lookup_eq hp, find_taken_zero hfirst] at hname hzero
  have hle : loc.path.length ≤ baseLen path track := by
    obtain ⟨path', hp', hname⟩ := hname (loc.filled 0) _ rfl
    cases hp.symm.trans hp'
    rw [← length_stripped]
    rcases hname with hname | hname
    · exact Nat.le_of_eq (congrArg List.length hname)
    · exact hname.1.length_le
  refine eq_stripped hpfx (Nat.le_antisymm hle ?_)
  -- and so it does with a byte behind every path that no test takes for an end
  obtain ⟨-, hone⟩ := h _ (strings_filled 1 locs)
  rw [← hzero, lookup_eq hp, List.find?_map] at hone
  cases hfound : locs.find? (taken path (baseLen path track) ∘ RtspLocation.filled 1) with
  | none =>
    rw [hfound] at hone
    cases hone
  | some loc' =>
    rw [hfound] at hone
    have hpath : loc'.path = loc.path := congrArg (fun x => ((x.getD none).map fun y => y.1.1).getD []) hone
    rw [← hpath]
    have htaken : (taken path (baseLen path track) ∘ RtspLocation.filled 1) loc' := List.find?_some hfound
    exact length_of_taken_one htaken

theorem firstAbove_exact (hstrings : locs'.map RtspLocation.strings = locs.map RtspLocation.strings)
    (hfirst : ∀ loc, firstAbove locs path = some loc → loc.path = strippedPath path track) {loc' : RtspLocation}
    (hloc' : firstAbove locs' path = some loc') : loc'.path = strippedPath path track := by
  have hmap := firstAbove_strings hstrings path
  rw [hloc', Option.map_some, eq_comm, Option.map_eq_some_iff] at hmap
  obtain ⟨loc, hloc, heq⟩ := hmap
  have hpath : loc.path = loc'.path := congrArg Prod.fst heq
  rw [← hpath]
  exact hfirst loc hloc

theorem strings_of_firstIsExact (hexact : FirstIsExact locs uri track) : LooksUpByStrings locs uri track := by
  intro locs' hstrings
  cases hp : getLocalPath uri with
  | none =>
    have hnone : ∀ l, findRtspLocation l uri false track = some none := by
      intro l
      rw [findRtspLocation, hp]
    rw [hnone, hnone]
    exact ⟨fun loc n hfound => (by cases hfound), rfl⟩
  | some path =>
    have hfirst : ∀ loc, firstAbove locs path = some loc → loc.path = strippedPath path track :=
      fun loc hloc => hexact path loc hp hloc
    have hfirst' : ∀ loc, firstAbove locs' path = some loc → loc.path = strippedPath path track :=
      fun loc hloc => firstAbove_exact hstrings hfirst hloc
    rw [lookup_eq hp, lookup_eq hp, find_taken_of_exact hfirst', find_taken_of_exact hfirst]
    constructor
    · intro loc n hfound
      obtain ⟨loc', hloc', heq⟩ := Option.map_eq_some_iff.mp (Option.some.inj hfound)
      cases heq
      exact ⟨path, rfl, .inl (hfirst' loc hloc')⟩
    · have hpair : ∀ l : List RtspLocation, ((firstAbove l path).map fun loc =>
          (loc, if track then (trackOf path).1 else -1)).map (Prod.map RtspLocation.strings id) =
            ((firstAbove l path).map RtspLocation.strings).map fun s => (s, if track then (trackOf path).1 else -1) := by
        intro l
        rw [Option.map_map, Option.map_map]
        rfl
      rw [Option.map_some, Option.map_some, hpair, hpair, firstAbove_strings hstrings path]

end Lookup

/-- **The lookup keeps to whole names** exactly if the first location that is a prefix has the whole path. -/
theorem lookup_by_strings_iff (locs : List RtspLocation) (uri : Str) (track : Bool) :
    LooksUpByStrings locs uri track ↔ FirstIsExact locs uri track :=
  ⟨firstIsExact_of_strings, strings_of_firstIsExact⟩

def pathOnly (path : String) (after : UInt8) : RtspLocation := ⟨bytes path, fun _ => after, [], [], [], 0⟩

theorem lookup_beside_strings : ¬ LooksUpByStrings [pathOnly "/li" 0] (bytes "rtsp://c/live") false ∧
    ¬ LooksUpByStrings [pathOnly "/live/tr" 0] (bytes "rtsp://c/live/track1") true := by
  refine ⟨fun h => ?_, fun h => ?_⟩
  · have hone := (h [pathOnly "/li" 1] rfl).2
    exact absurd (congrArg (fun x => (x.getD none).isSome) hone) (by decide)
  · obtain ⟨path, hp, hname⟩ := (h _ rfl).1 (pathOnly "/live/tr" 0) 1 (by rfl)
    cases hp
    rcases hname with hname | ⟨hpre, -⟩
    · exact absurd hname (by decide)
    · exact absurd hpre.length_le (by decide)

end NuWicam.Rtsp
