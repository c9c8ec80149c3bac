/-
# The file sink and its rotation

`file_sink_create` and `file_write` of `sinks/file_sink.c` and
`file_rotate_file` of `core/rotate.c`, over a store of named files.

A write that brings the active file to `max_size` bytes rotates: the oldest
backup is unlinked, `.N-1` … `.1` are renamed one number up, from the top down,
the active file becomes `.1`, and a new active file is opened.  A backup that
does not exist is passed over.  Names are printed into 512 bytes, so they are
what they should be only while they fit (`backupName_inj`).
-/

import Clogx.CLib.Numeral

namespace Clogx
namespace File

open CLib

/-- The files by name. -/
abbrev Files := Text → Option (List UInt8)

def Files.unlink (fs : Files) (path : Text) : Files := Function.update fs path none

/-- `rename` of a file that exists; a file that is renamed to its own name stays. -/
def Files.rename (fs : Files) (src dst : Text) : Files :=
  if src = dst then fs else Function.update (Function.update fs dst (fs src)) src none

/-- `fopen(path, "ab")`: the file is created if it does not exist. -/
def Files.openAppend (fs : Files) (path : Text) : Files :=
  Function.update fs path (some ((fs path).getD []))

/-- The files after bytes were appended to one that exists. -/
def Files.append (fs : Files) (path : Text) (w : List UInt8) : Files :=
  Function.update fs path ((fs path).map (· ++ w))

/-- The largest size of a file. -/
def maxFileSize : ℕ := 2 ^ 63 - 1

/-- The name of a backup, as it is printed. -/
def backupName (path : Text) (i : ℕ) : Text := cut 512 (path ++ str "." ++ decimal i)

/-- The loop `.i → .i+1`, from `i` down to `1`. -/
def shift (path : Text) : ℕ → Files → Files
  | 0, fs => fs
  | i + 1, fs =>
    shift path i (if (fs (backupName path (i + 1))).isSome then
      fs.rename (backupName path (i + 1)) (backupName path (i + 2)) else fs)

/-- `-ENOENT`. -/
def enoent : ℤ := -2

/-- `file_rotate_file`, where every `unlink` and `rename` of a file that exists succeeds. -/
def fileRotateFile (fs : Files) (basePath : Text) (maxBackups : ℤ) : ℤ × Files :=
  if maxBackups ≤ 0 then (-1, fs)
  else
    let fs := fs.unlink (backupName basePath maxBackups.toNat)
    let fs := shift basePath (maxBackups.toNat - 1) fs
    if (fs basePath).isSome then (0, fs.rename basePath (backupName basePath 1)) else (enoent, fs)

/-- `file_sink_data_t` of an open sink, with the files. -/
structure Sink where
  files : Files
  path : Text
  maxSize : ℕ
  currentSize : ℕ
  backups : ℤ

/-- `file_sink_create`: the size of what is already there is counted. -/
def fileSinkCreate (files : Files) (path : Text) (maxSize : ℕ) (backups : ℤ) : Option Sink :=
  if path = [] then none
  else
    let files := files.openAppend path
    some ⟨files, path, maxSize, ((files path).getD []).length, backups⟩

/-- The `fwrite` loop: `accepts m` is how many of `m` bytes the next `fwrite` takes, `0` for an
error; bytes beyond the largest file size are an error as well.  `none` is the return of `-1`. -/
def writeLoop (accepts : ℕ → ℕ) : ℕ → Sink → List UInt8 → Option Sink
  | _, s, [] => some s
  | 0, _, _ :: _ => none
  | fuel + 1, s, b :: rest =>
    let n := min (accepts (rest.length + 1)) (rest.length + 1)
    if n = 0 ∨ maxFileSize < ((s.files s.path).getD []).length + n then none
    else
      writeLoop accepts fuel { s with files := s.files.append s.path ((b :: rest).take n) }
        ((b :: rest).drop n)

/-- The rotation of the sink: the result of `file_rotate_file` is only reported. -/
def Sink.rotate (s : Sink) : Sink :=
  let files := (fileRotateFile s.files s.path s.backups).2
  { s with files := files.openAppend s.path, currentSize := 0 }

/-- `file_write`; `none` is the return of `-1`. -/
def fileWrite (accepts : ℕ → ℕ) (s : Sink) (buf : List UInt8) : Option Sink :=
  (writeLoop accepts buf.length s buf).map fun s =>
    let s := { s with currentSize := (s.currentSize + buf.length) % 2 ^ 64 }
    if 0 < s.maxSize ∧ s.maxSize ≤ s.currentSize then s.rotate else s

/-! ### Appending -/

theorem Files.append_self (fs : Files) (path : Text) (w : List UInt8) :
    fs.append path w path = (fs path).map (· ++ w) :=
  Function.update_self ..

theorem Files.append_nil (fs : Files) (path : Text) : fs.append path [] = fs := by
  simp [Files.append]

theorem Files.append_append (fs : Files) (path : Text) (v w : List UInt8) :
    (fs.append path v).append path w = fs.append path (v ++ w) := by
  rw [append, append_self, append, Function.update_idem, append, Option.map_map]
  simp [Function.comp_def]

theorem Files.length_append_le (fs : Files) (path : Text) (w : List UInt8) :
    ((fs.append path w path).getD []).length ≤ ((fs path).getD []).length + w.length := by
  rw [append_self]
  cases fs path <;> simp

/-- **The `fwrite` loop appends the whole buffer, or fails.** -/
theorem writeLoop_spec {accepts : ℕ → ℕ} (fuel : ℕ) : ∀ {s t : Sink} {buf : List UInt8},
    writeLoop accepts fuel s buf = some t →
      ((s.files s.path).getD []).length ≤ maxFileSize →
      t = { s with files := s.files.append s.path buf } ∧
        ((t.files s.path).getD []).length ≤ maxFileSize := by
  induction fuel with
  | zero =>
    intro s t buf h hsize
    cases buf with
    | nil =>
      cases h
      exact ⟨by rw [Files.append_nil], hsize⟩
    | cons b rest => cases h
  | succ fuel ih =>
    intro s t buf h hsize
    cases buf with
    | nil =>
      cases h
      exact ⟨by rw [Files.append_nil], hsize⟩
    | cons b rest =>
      rw [writeLoop] at h
      generalize min (accepts (rest.length + 1)) (rest.length + 1) = n at h
      split_ifs at h with hfail
      have hle := s.files.length_append_le s.path ((b :: rest).take n)
      have htake := List.length_take_le n (b :: rest)
      obtain ⟨ht, hsize'⟩ := ih h (hle.trans (by omega))
      refine ⟨?_, hsize'⟩
      rw [ht]
      simp only [Files.append_append, List.take_append_drop]

/-! ### Names -/

/-- The names of the backups up to `n` fit their buffers. -/
def Fits (path : Text) (n : ℕ) : Prop := (path ++ str "." ++ decimal n).length < 512

instance (path : Text) (n : ℕ) : Decidable (Fits path n) := inferInstanceAs (Decidable (_ < _))

theorem backupName_eq {path : Text} {n : ℕ} (h : Fits path n) {i : ℕ} (hi : i ≠ 0) (hin : i ≤ n) :
    backupName path i = path ++ str "." ++ decimal i := by
  have hle := length_decimal_le hi hin
  rw [Fits] at h
  refine cut_of_length_lt ?_
  simp only [List.length_append] at h ⊢
  omega

/-- **Different backups have different names.** -/
theorem backupName_inj {path : Text} {n : ℕ} (h : Fits path n) {i j : ℕ} (hi : i ≠ 0) (hj : j ≠ 0)
    (hin : i ≤ n) (hjn : j ≤ n) (heq : backupName path i = backupName path j) : i = j := by
  rw [backupName_eq h hi hin, backupName_eq h hj hjn, List.append_cancel_left_eq] at heq
  exact decimal_injective heq

/-- No backup has the name of the active file. -/
theorem backupName_ne {path : Text} {n : ℕ} (h : Fits path n) {i : ℕ} (hi : i ≠ 0) (hin : i ≤ n) :
    backupName path i ≠ path := by
  intro heq
  have hlen := congrArg List.length heq
  rw [backupName_eq h hi hin] at hlen
  simp [str] at hlen

/-! ### The chain of renames -/

/-- One round of the loop, onto a number that is free. -/
theorem rename_round {fs : Files} {src dst : Text} (hfree : fs dst = none) :
    (if (fs src).isSome then fs.rename src dst else fs) =
      Function.update (Function.update fs dst (fs src)) src none := by
  split_ifs with h
  · have hne : src ≠ dst := fun heq => by simp [heq, hfree] at h
    rw [Files.rename, if_neg hne]
  · rw [Bool.not_eq_true, Option.isSome_eq_false_iff, Option.isNone_iff_eq_none] at h
    rw [h, ← hfree, Function.update_eq_self, ← h.trans hfree.symm, Function.update_eq_self]

/-- **The chain moves every backup one number up,** if the number above the chain is free; then
`.1` is free, and nothing else has moved. -/
theorem shift_spec {path : Text} {n : ℕ} (hfits : Fits path n) (k : ℕ) :
    ∀ {f : Files}, k + 1 ≤ n → f (backupName path (k + 1)) = none →
      shift path k f (backupName path 1) = none ∧
      (∀ i, i ≠ 0 → i ≤ k → shift path k f (backupName path (i + 1)) = f (backupName path i)) ∧
      ∀ p, (∀ i, i ≠ 0 → i ≤ k + 1 → p ≠ backupName path i) → shift path k f p = f p := by
  induction k with
  | zero =>
    intro f _ hfree
    exact ⟨hfree, fun i hi hik => absurd hik (by omega), fun _ _ => rfl⟩
  | succ k ih =>
    intro f hn hfree
    have hne : backupName path (k + 1) ≠ backupName path (k + 1 + 1) := fun heq => by
      have := backupName_inj hfits (by omega) (by omega) (by omega) (by omega) heq
      omega
    rw [shift, rename_round hfree]
    obtain ⟨hone, hmoved, hrest⟩ := ih (f := Function.update (Function.update f
      (backupName path (k + 1 + 1)) (f (backupName path (k + 1)))) (backupName path (k + 1)) none)
      (by omega) (Function.update_self ..)
    refine ⟨hone, fun i hi hik => ?_, fun p hp => ?_⟩
    · rcases Nat.lt_or_ge k i with hlt | hle
      · -- the backup this round has moved, which the rest of the chain does not touch
        obtain rfl : i = k + 1 := by omega
        rw [hrest _ fun j hj hjk heq => by
            have := backupName_inj hfits (by omega) hj (by omega) (by omega) heq
            omega,
          Function.update_of_ne hne.symm, Function.update_self]
      · have hnames : ∀ j, j = k + 1 ∨ j = k + 1 + 1 → backupName path i ≠ backupName path j := by
          intro j hj heq
          have := backupName_inj hfits hi (by omega) (by omega) (by omega) heq
          omega
        rw [hmoved i hi hle, Function.update_of_ne (hnames _ (.inl rfl)),
          Function.update_of_ne (hnames _ (.inr rfl))]
    · rw [hrest p fun i hi hik => hp i hi (by omega),
        Function.update_of_ne (hp _ (by omega) (by omega)),
        Function.update_of_ne (hp _ (by omega) (by omega))]

/-- The file of a number, `0` for the active one. -/
def fileName (path : Text) : ℕ → Text
  | 0 => path
  | i + 1 => backupName path (i + 1)

section Rotation

variable {path : Text} {n : ℕ} (hn : 1 ≤ n) (hfits : Fits path n)

include hn hfits

/-- The chain does not touch the active file. -/
theorem shift_unlink_active (fs : Files) :
    shift path (n - 1) (fs.unlink (backupName path n)) path = fs path := by
  have hfree : fs.unlink (backupName path n) (backupName path (n - 1 + 1)) = none := by
    rw [Nat.sub_add_cancel hn]
    exact Function.update_self ..
  obtain ⟨-, -, hrest⟩ := shift_spec hfits (n - 1) (by omega) hfree
  rw [hrest _ fun i hi hin => (backupName_ne hfits hi (by omega)).symm]
  exact Function.update_of_ne (backupName_ne hfits (by omega) le_rfl).symm ..

/-- `file_rotate_file` fails only where there is no active file. -/
theorem fileRotateFile_fits (fs : Files) :
    fileRotateFile fs path n =
      if (fs path).isSome then
        (0, (shift path (n - 1) (fs.unlink (backupName path n))).rename path (backupName path 1))
      else (enoent, shift path (n - 1) (fs.unlink (backupName path n))) := by
  rw [fileRotateFile, if_neg (by omega), Int.toNat_natCast]
  simp only [shift_unlink_active hn hfits]

/-- **The files after a rotation:** every file has moved one number up, the active one is gone, and
files of other names are as they were. -/
theorem fileRotateFile_spec {fs : Files} (hopen : (fs path).isSome) :
    (∀ i < n, (fileRotateFile fs path n).2 (fileName path (i + 1)) = fs (fileName path i)) ∧
      (fileRotateFile fs path n).2 path = none ∧
      ∀ p, (∀ i ≤ n, p ≠ fileName path i) → (fileRotateFile fs path n).2 p = fs p := by
  have hactive {i : ℕ} (hi : i ≠ 0) (hin : i ≤ n) : backupName path i ≠ path :=
    backupName_ne hfits hi hin
  have hfree : fs.unlink (backupName path n) (backupName path (n - 1 + 1)) = none := by
    rw [Nat.sub_add_cancel hn]
    exact Function.update_self ..
  obtain ⟨hone, hmoved, hrest⟩ := shift_spec hfits (n - 1) (by omega) hfree
  rw [fileRotateFile_fits hn hfits, if_pos hopen, Files.rename,
    if_neg (hactive one_ne_zero hn).symm]
  dsimp only
  refine ⟨fun i hi => ?_, Function.update_self .., fun p hp => ?_⟩
  · rw [fileName, Function.update_of_ne (hactive (by omega) (by omega))]
    cases i with
    | zero => rw [Function.update_self, fileName, shift_unlink_active hn hfits]
    | succ i =>
      have hne (j : ℕ) (hj : j ≠ 0) (hjn : j ≤ n) {k : ℕ} (hk : k ≠ 0) (hkn : k ≤ n)
          (hkj : k ≠ j) : backupName path k ≠ backupName path j :=
        fun heq => hkj (backupName_inj hfits hk hj hkn hjn heq)
      rw [Function.update_of_ne (hne 1 one_ne_zero hn (by omega) (by omega) (by omega)),
        hmoved (i + 1) (by omega) (by omega), fileName]
      exact Function.update_of_ne (hne n (by omega) le_rfl (by omega) (by omega) (by omega)) ..
  · have hp' {i : ℕ} (hi : i ≠ 0) (hin : i ≤ n) : p ≠ backupName path i := by
      obtain ⟨j, rfl⟩ := Nat.exists_eq_succ_of_ne_zero hi
      exact hp _ hin
    rw [Function.update_of_ne (show p ≠ path from hp 0 (Nat.zero_le _)),
      Function.update_of_ne (hp' one_ne_zero hn), hrest p fun i hi hin => hp' hi (by omega)]
    exact Function.update_of_ne (hp' (by omega) le_rfl) ..

end Rotation

/-- **A rotation moves every file one number up:** the last backup is dropped, and the active file
is new. -/
theorem rotate_spec {s : Sink} {n : ℕ} (hb : s.backups = n) (hn : 1 ≤ n) (hfits : Fits s.path n)
    (hopen : (s.files s.path).isSome) :
    (∀ i < n, s.rotate.files (fileName s.path (i + 1)) = s.files (fileName s.path i)) ∧
      s.rotate.files s.path = some [] := by
  obtain ⟨hmoved, hgone, -⟩ := fileRotateFile_spec hn hfits hopen
  simp only [Sink.rotate, hb, Files.openAppend, hgone, Function.update_self]
  refine ⟨fun i hi => ?_, rfl⟩
  rw [Function.update_of_ne (show fileName s.path (i + 1) ≠ s.path from
    backupName_ne hfits (by omega) (by omega)), hmoved i hi]

end File
end Clogx
