/-
# What the file sink retains

The files of a sink, oldest first, are a suffix of everything that was ever in
them.  To say where it is cut, the bytes are kept in the portions they came in:
the contents of the files at the start, and one portion for each write.  A file
is a group of consecutive portions; a write goes whole into the last group, and a
rotation drops the first group and opens a new one.
-/

import Clogx.File.Sink

namespace Clogx
namespace File

open CLib

/-- The values at `n`, …, `1`, `0`. -/
def oldestFirst {α : Type*} (c : ℕ → α) : ℕ → List α
  | 0 => [c 0]
  | n + 1 => c (n + 1) :: oldestFirst c n

theorem oldestFirst_congr {α : Type*} {c d : ℕ → α} {n : ℕ} (h : ∀ i ≤ n, c i = d i) :
    oldestFirst c n = oldestFirst d n := by
  induction n with
  | zero => rw [oldestFirst, oldestFirst, h 0 le_rfl]
  | succ n ih => rw [oldestFirst, oldestFirst, h (n + 1) le_rfl, ih fun i hi => h i (by omega)]

/-- The newest value stands at the end. -/
theorem oldestFirst_succ {α : Type*} (c : ℕ → α) (n : ℕ) :
    oldestFirst c (n + 1) = oldestFirst (fun i => c (i + 1)) n ++ [c 0] := by
  induction n with
  | zero => rfl
  | succ n ih =>
    rw [oldestFirst, ih]
    rfl

/-- The contents of `.n`, …, `.1` and the active file; a file that does not exist is empty. -/
def contents (files : Files) (path : Text) (n : ℕ) : List (List UInt8) :=
  oldestFirst (fun i => (files (fileName path i)).getD []) n

/-- One call of `file_write`: the bytes, and how `fwrite` takes them. -/
structure Call where
  accepts : ℕ → ℕ
  buf : List UInt8

/-- A sequence of calls; `none` if one of them fails. -/
def writeAll (s : Sink) : List Call → Option Sink
  | [] => some s
  | c :: cs => (fileWrite c.accepts s c.buf).bind fun s => writeAll s cs

/-- Portions in groups: those that were a file and those that still are one, oldest first and the
active file last. -/
structure Archive where
  dropped : List (List (List UInt8))
  kept : List (List (List UInt8))
deriving DecidableEq

/-- Every portion there ever was, oldest first. -/
def Archive.portions (a : Archive) : List (List UInt8) :=
  (a.dropped ++ a.kept).flatten

/-- A write goes whole into the last group. -/
def Archive.append (a : Archive) (w : List UInt8) : Archive :=
  ⟨a.dropped, a.kept.dropLast ++ [a.kept.getLastD [] ++ [w]]⟩

/-- A rotation drops the first group and opens an empty one. -/
def Archive.rotate (a : Archive) : Archive :=
  ⟨a.dropped ++ a.kept.take 1, a.kept.drop 1 ++ [[]]⟩

/-- What one write is for: it is appended, and there is a rotation exactly if the last group has
then reached the limit. -/
def Archive.write (maxSize : ℕ) (a : Archive) (w : List UInt8) : Archive :=
  if maxSize ≤ ((a.append w).kept.getLastD []).flatten.length then (a.append w).rotate
  else a.append w

/-- The archive after the writes, from files that are one group each. -/
def Archive.after (maxSize : ℕ) (files writes : List (List UInt8)) : Archive :=
  writes.foldl (Archive.write maxSize) ⟨[], files.map ([·])⟩

/-- **What the files are, in portions:** the kept groups of the archive. -/
structure Retained (s : Sink) (n : ℕ) (portions : List (List UInt8)) (a : Archive) : Prop where
  backups : s.backups = n
  pos : 1 ≤ n
  fits : Fits s.path n
  isOpen : (s.files s.path).isSome
  size : ((s.files s.path).getD []).length ≤ maxFileSize
  current : s.currentSize = ((s.files s.path).getD []).length
  groups : a.portions = portions
  kept : a.kept.map List.flatten = contents s.files s.path n

/-- A group at the end for the active file. -/
theorem Retained.exists_last {s : Sink} {n : ℕ} {portions : List (List UInt8)} {a : Archive}
    (h : Retained s n portions a) :
    ∃ older g, a.kept = older ++ [g] ∧ g.flatten = (s.files s.path).getD [] ∧
      older.map List.flatten =
        oldestFirst (fun i => (s.files (fileName s.path (i + 1))).getD []) (n - 1) := by
  have hk := h.kept
  obtain ⟨m, rfl⟩ : ∃ m, n = m + 1 := ⟨n - 1, by have := h.pos; omega⟩
  rw [contents, oldestFirst_succ, List.map_eq_append_iff] at hk
  obtain ⟨older, last, hkept, holder, hlast⟩ := hk
  obtain ⟨g, rfl, hg⟩ := List.map_eq_singleton_iff.1 hlast
  exact ⟨older, g, hkept, hg, holder⟩

/-- The last group is the active file. -/
theorem Retained.getLastD {s : Sink} {n : ℕ} {portions : List (List UInt8)} {a : Archive}
    (h : Retained s n portions a) : (a.kept.getLastD []).flatten = (s.files s.path).getD [] := by
  obtain ⟨older, g, hkept, hg, -⟩ := h.exists_last
  rw [hkept, List.getLastD_concat, hg]

/-- The files other than the active one are not written to. -/
theorem append_fileName {files : Files} {path : Text} {n : ℕ} (hfits : Fits path n) {i : ℕ}
    (hi : i + 1 ≤ n) (w : List UInt8) :
    files.append path w (fileName path (i + 1)) = files (fileName path (i + 1)) :=
  Function.update_of_ne (backupName_ne hfits (by omega) hi) ..

/-- A write goes whole into the group of the active file. -/
theorem Retained.append {s : Sink} {n : ℕ} {portions : List (List UInt8)} {a : Archive}
    (h : Retained s n portions a) {w : List UInt8} {c : ℕ}
    (hsize : (((s.files.append s.path w) s.path).getD []).length ≤ maxFileSize)
    (hc : c = (((s.files.append s.path w) s.path).getD []).length) :
    Retained { s with files := s.files.append s.path w, currentSize := c } n (portions ++ [w])
      (a.append w) := by
  obtain ⟨older, g, hkept, hg, holder⟩ := h.exists_last
  obtain ⟨bytes, hbytes⟩ := Option.isSome_iff_exists.1 h.isOpen
  have hself : (s.files.append s.path w) s.path = some (bytes ++ w) := by
    rw [Files.append_self, hbytes]
    rfl
  have happend : a.append w = ⟨a.dropped, older ++ [g ++ [w]]⟩ := by
    rw [Archive.append, hkept, List.dropLast_concat, List.getLastD_concat]
  rw [happend]
  refine ⟨h.backups, h.pos, h.fits, ?_, hsize, hc, ?_, ?_⟩
  · show ((s.files.append s.path w) s.path).isSome
    rw [hself]
    rfl
  · rw [← h.groups]
    simp [Archive.portions, hkept]
  · have hpos := h.pos
    obtain ⟨m, rfl⟩ : ∃ m, n = m + 1 := ⟨n - 1, by omega⟩
    rw [contents, oldestFirst_succ, List.map_append, holder]
    refine congrArg₂ _ (oldestFirst_congr fun i hi => ?_) ?_
    · show _ = ((s.files.append s.path w) (fileName s.path (i + 1))).getD []
      rw [append_fileName h.fits (by omega)]
    · show [(g ++ [w]).flatten] = [((s.files.append s.path w) s.path).getD []]
      rw [hself, List.flatten_append, hg, hbytes]
      simp

/-- A rotation drops the group of the oldest file, `.n`, and opens a new one. -/
theorem Retained.rotate {s : Sink} {n : ℕ} {portions : List (List UInt8)} {a : Archive}
    (h : Retained s n portions a) : Retained s.rotate n portions a.rotate := by
  obtain ⟨hmoved, hactive⟩ := rotate_spec h.backups h.pos h.fits h.isOpen
  have hpos := h.pos
  obtain ⟨m, rfl⟩ : ∃ m, n = m + 1 := ⟨n - 1, by omega⟩
  have hk := h.kept
  rw [contents, oldestFirst, List.map_eq_cons_iff] at hk
  obtain ⟨oldest, rest, hkept, -, hrest⟩ := hk
  have hactive' : s.rotate.files s.rotate.path = some [] := hactive
  have hrotate : a.rotate = ⟨a.dropped ++ [oldest], rest ++ [[]]⟩ := by
    rw [Archive.rotate, hkept]
    rfl
  rw [hrotate]
  refine ⟨h.backups, hpos, h.fits, ?_, ?_, ?_, ?_, ?_⟩
  · rw [hactive']
    rfl
  · rw [hactive']
    exact Nat.zero_le _
  · rw [hactive']
    rfl
  · rw [← h.groups]
    simp [Archive.portions, hkept]
  · rw [contents, oldestFirst_succ, List.map_append, hrest]
    refine congrArg₂ _ (oldestFirst_congr fun i hi => ?_) ?_
    · exact congrArg (Option.getD · []) (hmoved i (by omega)).symm
    · show [[]] = [(s.rotate.files s.path).getD []]
      rw [hactive]
      rfl

/-- One call is one write of the archive, adds its bytes as one portion, and leaves the active
file below the limit. -/
theorem Retained.fileWrite {s t : Sink} {n : ℕ} {portions : List (List UInt8)} {a : Archive}
    (h : Retained s n portions a) (hmax : 0 < s.maxSize) {c : Call}
    (hw : fileWrite c.accepts s c.buf = some t) :
    t.path = s.path ∧ t.maxSize = s.maxSize ∧ t.currentSize < t.maxSize ∧
      Retained t n (portions ++ [c.buf]) (a.write s.maxSize c.buf) := by
  obtain ⟨u, hu, ht⟩ := Option.map_eq_some_iff.1 hw
  obtain ⟨rfl, hsize⟩ := writeLoop_spec _ hu h.size
  obtain ⟨bytes, hbytes⟩ := Option.isSome_iff_exists.1 h.isOpen
  -- the counter does not wrap, since a file does not grow that large
  have hcount : (s.currentSize + c.buf.length) % 2 ^ 64 =
      ((s.files.append s.path c.buf s.path).getD []).length := by
    have hlen : s.currentSize + c.buf.length =
        ((s.files.append s.path c.buf s.path).getD []).length := by
      rw [h.current, Files.append_self, hbytes]
      simp
    have hbound : ((s.files.append s.path c.buf s.path).getD []).length ≤ 2 ^ 63 - 1 := hsize
    rw [hlen, Nat.mod_eq_of_lt (by omega)]
  have hret := h.append hsize hcount
  -- so the test of the code is that of the archive
  have hlast : ((a.append c.buf).kept.getLastD []).flatten.length =
      (s.currentSize + c.buf.length) % 2 ^ 64 := by
    rw [hret.getLastD]
    exact hcount.symm
  subst ht
  simp only [Archive.write, hlast]
  split_ifs with hcode harchive harchive
  · exact ⟨rfl, rfl, hmax, hret.rotate⟩
  · exact absurd hcode.2 harchive
  · exact absurd ⟨hmax, harchive⟩ hcode
  · exact ⟨rfl, rfl, Nat.lt_of_not_le harchive, hret⟩

/-- The files of a sink that was just created are one portion each. -/
theorem retained_create {files : Files} {path : Text} {maxSize n : ℕ} {s : Sink} (hn : 1 ≤ n)
    (hfits : Fits path n) (hsize : ((files path).getD []).length ≤ maxFileSize)
    (hs : fileSinkCreate files path maxSize n = some s) :
    s.path = path ∧ s.maxSize = maxSize ∧
      Retained s n (contents files path n) ⟨[], (contents files path n).map ([·])⟩ := by
  rw [fileSinkCreate] at hs
  split_ifs at hs
  cases hs
  have hself : files.openAppend path path = some ((files path).getD []) := Function.update_self ..
  have hsame : contents (files.openAppend path) path n = contents files path n := by
    refine oldestFirst_congr fun i hi => ?_
    cases i with
    | zero =>
      show (files.openAppend path path).getD [] = _
      rw [hself]
      rfl
    | succ i =>
      exact congrArg (Option.getD · [])
        (Function.update_of_ne (backupName_ne hfits (by omega) hi) ..)
  refine ⟨rfl, rfl, rfl, hn, hfits, ?_, ?_, rfl, ?_, ?_⟩
  · show (files.openAppend path path).isSome
    rw [hself]
    rfl
  · show ((files.openAppend path path).getD []).length ≤ maxFileSize
    rw [hself]
    exact hsize
  · rw [Archive.portions, List.nil_append, ← List.flatMap_def, List.flatMap_singleton']
  · show _ = contents (files.openAppend path) path n
    rw [hsame, List.map_map]
    simp [Function.comp_def]

/-- The archive along a run. -/
theorem Retained.writeAll {n : ℕ} (cs : List Call) : ∀ {s t : Sink} {portions : List (List UInt8)}
    {a : Archive}, Retained s n portions a → 0 < s.maxSize → writeAll s cs = some t →
      t.path = s.path ∧ t.maxSize = s.maxSize ∧ (cs ≠ [] → t.currentSize < t.maxSize) ∧
        Retained t n (portions ++ cs.map Call.buf)
          ((cs.map Call.buf).foldl (Archive.write s.maxSize) a) := by
  induction cs with
  | nil =>
    intro s t portions a h _ hw
    cases hw
    exact ⟨rfl, rfl, nofun, by simpa using h⟩
  | cons c cs ih =>
    intro s t portions a h hmax hw
    obtain ⟨u, hu, hw⟩ := Option.bind_eq_some_iff.1 hw
    obtain ⟨hpath, hmaxu, hlt, hret⟩ := h.fileWrite hmax hu
    obtain ⟨hpath', hmax', hlt', hret'⟩ := ih hret (hmaxu ▸ hmax) hw
    refine ⟨hpath'.trans hpath, hmax'.trans hmaxu, fun _ => ?_, ?_⟩
    · rcases cs with _ | ⟨c', cs⟩
      · cases hw
        exact hlt
      · exact hlt' nofun
    · rw [hmaxu, List.append_assoc, List.singleton_append] at hret'
      exact hret'

example : Archive.after 2 [[], []] [[1, 1], [2], [3], [4]] =
    ⟨[[[]], [[], [1, 1]]], [[[2], [3]], [[4]]]⟩ := by decide

/-- **Retention over runs.**  However many calls succeed, the files `.n`, …, `.1` and the active
one are the kept groups of the archive that starts with the initial contents, one group a file,
and takes the writes: a write goes whole into the active file, and the oldest file, and it alone,
is dropped when the active one has reached the limit.  Dropped and kept groups together are the
initial contents and all writes, and after a call the active file is below the limit and as long
as `current_size` says. -/
theorem retention {files : Files} {path : Text} {maxSize n : ℕ} (hmax : 0 < maxSize) (hn : 1 ≤ n)
    (hfits : Fits path n) (hsize : ((files path).getD []).length ≤ maxFileSize) {s t : Sink}
    (hs : fileSinkCreate files path maxSize n = some s) {cs : List Call}
    (hw : writeAll s cs = some t) :
    contents t.files path n =
        (Archive.after maxSize (contents files path n) (cs.map Call.buf)).kept.map List.flatten ∧
      (Archive.after maxSize (contents files path n) (cs.map Call.buf)).portions =
        contents files path n ++ cs.map Call.buf ∧
      (cs ≠ [] → ((t.files path).getD []).length < maxSize ∧
        t.currentSize = ((t.files path).getD []).length) := by
  obtain ⟨hpath, hmaxs, hret⟩ := retained_create hn hfits hsize hs
  obtain ⟨hpath', hmax', hlt, hret'⟩ := hret.writeAll cs (hmaxs ▸ hmax) hw
  rw [hmaxs] at hret'
  have htpath : t.path = path := hpath'.trans hpath
  have hcur := hret'.current
  have hkept := hret'.kept
  rw [htpath] at hcur hkept
  refine ⟨hkept.symm, hret'.groups, fun hne => ⟨?_, hcur⟩⟩
  have := hlt hne
  rw [hmax', hmaxs] at this
  omega

/-- An active file, no `.1` and a backup `.2`. -/
def gapFiles : Files :=
  Function.update (Function.update (fun _ => none) (str "a.2") (some (str "old")))
    (str "a") (some (str "xy"))

/-- Two backups with a gap and four calls at a limit of three bytes: `z` and `uvw` fill the active
file, `old` and then the gap are dropped, and `b` and `c` are in the active file. -/
theorem retention_gapFiles : ∃ s t : Sink, fileSinkCreate gapFiles (str "a") 3 (2 : ℕ) = some s ∧
    writeAll s [⟨id, str "z"⟩, ⟨id, str "uvw"⟩, ⟨id, str "b"⟩, ⟨id, str "c"⟩] = some t ∧
    Archive.after 3 (contents gapFiles (str "a") 2) [str "z", str "uvw", str "b", str "c"] =
      ⟨[[str "old"], [[]]], [[str "xy", str "z"], [str "uvw"], [str "b", str "c"]]⟩ ∧
    contents t.files (str "a") 2 = [str "xyz", str "uvw", str "bc"] ∧
    ((t.files (str "a")).getD []).length < 3 := by
  have hrun : ((fileSinkCreate gapFiles (str "a") 3 (2 : ℕ)).bind fun s =>
      writeAll s [⟨id, str "z"⟩, ⟨id, str "uvw"⟩, ⟨id, str "b"⟩, ⟨id, str "c"⟩]).isSome := by
    decide +kernel
  obtain ⟨t, hst⟩ := Option.isSome_iff_exists.1 hrun
  obtain ⟨s, hs, ht⟩ := Option.bind_eq_some_iff.1 hst
  have harchive : Archive.after 3 (contents gapFiles (str "a") 2)
      [str "z", str "uvw", str "b", str "c"] =
        ⟨[[str "old"], [[]]], [[str "xy", str "z"], [str "uvw"], [str "b", str "c"]]⟩ := by
    decide +kernel
  obtain ⟨hcontents, -, hactive⟩ :=
    retention (by decide) (by decide) (by decide +kernel) (by decide +kernel) hs ht
  refine ⟨s, t, hs, ht, harchive, hcontents.trans ?_, (hactive nofun).1⟩
  decide +kernel

end File
end Clogx
