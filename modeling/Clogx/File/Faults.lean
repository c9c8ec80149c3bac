/-
# The file sink when operations fail

`file_write` and `file_rotate_file` once more, with the answers of `fwrite`,
`unlink` and `rename` as inputs: an `fwrite` may take less than it was given, or
nothing, with or without an error, and every `unlink` and `rename` may be
refused.  A rotation records what it has unlinked and renamed.

Where nothing fails these are the functions of `Clogx.File.Sink`
(`files_of_ret`, `fileRotateFile_of_granted`, `fileWrite_of_some`).  With
failures the counter `current_size` is right only while every error comes before
the first byte of its call and every rotation goes through: the error return
skips the count, and the counter is reset whether or not the file was moved.
The names of a rotation are its own only while they fit (`Fits`).
-/

import Clogx.Machine.Run
import Clogx.File.Sink

namespace Clogx
namespace File
namespace Faults

open CLib Machine

/-- The answer of one `fwrite`: the items it took, and `ferror` after it. -/
structure Fwrite where
  count : ℕ
  ferror : Bool

/-- The answers to one `file_write`: of its `fwrite`s in order (those after the list take all they
are given), of the `unlink`, and of the `rename` of each file, `0` for the active one. -/
structure Answers where
  fwrites : List Fwrite := []
  unlink : Bool := true
  rename : ℕ → Bool := fun _ => true

/-- The `fwrite` loop: the bytes that were taken, and whether it is left by the error return. -/
def writeLoop : List Fwrite → List UInt8 → List UInt8 × Bool
  | [], buf => (buf, false)
  | _ :: _, [] => ([], false)
  | o :: os, b :: rest =>
    let n := min o.count (rest.length + 1)
    if n = 0 then ([], o.ferror)
    else
      let r := writeLoop os ((b :: rest).drop n)
      ((b :: rest).take n ++ r.1, r.2)

/-- What a rotation has done to the files. -/
inductive Op
  | unlink (path : Text)
  | rename (src dst : Text)
  deriving DecidableEq

/-- A rotation: what it returns, what it did, and the files after it. -/
structure Rotation where
  ret : ℤ
  ops : List Op
  files : Files

/-- `-EACCES`. -/
def eacces : ℤ := -13

/-- The loop `.i → .i+1`, from `i` down to `1`. -/
def shift (a : Answers) (path : Text) : ℕ → Files → Rotation
  | 0, fs => ⟨0, [], fs⟩
  | i + 1, fs =>
    let src := backupName path (i + 1)
    let dst := backupName path (i + 2)
    if (fs src).isSome then
      if a.rename (i + 1) then
        let r := shift a path i (fs.rename src dst)
        { r with ops := .rename src dst :: r.ops }
      else ⟨eacces, [], fs⟩
    else shift a path i fs

/-- The record of the `unlink` of a file. -/
def dropped (fs : Files) (path : Text) : List Op := if (fs path).isSome then [.unlink path] else []

/-- `file_rotate_file`. -/
def fileRotateFile (a : Answers) (fs : Files) (basePath : Text) (maxBackups : ℤ) : Rotation :=
  if maxBackups ≤ 0 then ⟨-1, [], fs⟩
  else if a.unlink = false then ⟨eacces, [], fs⟩
  else
    let oldest := backupName basePath maxBackups.toNat
    let r := shift a basePath (maxBackups.toNat - 1) (fs.unlink oldest)
    if r.ret ≠ 0 then ⟨r.ret, dropped fs oldest ++ r.ops, r.files⟩
    else if (r.files basePath).isSome = false then ⟨enoent, dropped fs oldest ++ r.ops, r.files⟩
    else if a.rename 0 = false then ⟨eacces, dropped fs oldest ++ r.ops, r.files⟩
    else
      ⟨0, dropped fs oldest ++ r.ops ++ [.rename basePath (backupName basePath 1)],
        r.files.rename basePath (backupName basePath 1)⟩

/-- The rotation of the sink, where the file can be opened again. -/
def rotate (a : Answers) (s : Sink) : Sink :=
  let files := (fileRotateFile a s.files s.path s.backups).files
  { s with files := files.openAppend s.path, currentSize := 0 }

/-- `file_write`, with the value it returns. -/
def fileWrite (a : Answers) (s : Sink) (buf : List UInt8) : ℤ × Sink :=
  let r := writeLoop a.fwrites buf
  let s := { s with files := s.files.append s.path r.1 }
  if r.2 then (-1, s)
  else
    let s := { s with currentSize := (s.currentSize + r.1.length) % 2 ^ 64 }
    (toInt r.1.length, if 0 < s.maxSize ∧ s.maxSize ≤ s.currentSize then rotate a s else s)

/-! ### Where nothing fails -/

theorem files_shift {a : Answers} {path : Text} (k : ℕ) : ∀ {fs : Files},
    (shift a path k fs).ret = 0 → (shift a path k fs).files = File.shift path k fs := by
  induction k with
  | zero => intro fs _; rfl
  | succ k ih =>
    intro fs h
    rw [shift] at h ⊢
    rw [File.shift]
    split_ifs at h ⊢ with hsome hok
    · exact ih h
    · cases h
    · exact ih h

theorem ret_shift {a : Answers} {path : Text} {k : ℕ} (hok : ∀ i, i ≤ k → a.rename i = true) :
    ∀ fs : Files, (shift a path k fs).ret = 0 := by
  induction k with
  | zero => intro fs; rfl
  | succ k ih =>
    intro fs
    have ih' := ih fun i hi => hok i (by omega)
    rw [shift, hok (k + 1) le_rfl]
    by_cases hsome : (fs (backupName path (k + 1))).isSome
    · simp only [hsome, if_true]
      exact ih' _
    · simp only [hsome]
      exact ih' _

section Cases

variable {a : Answers} {fs : Files} {path : Text} {n : ℕ}

/-- The loop of a rotation that has dropped the oldest backup. -/
abbrev loop (a : Answers) (fs : Files) (path : Text) (n : ℕ) : Rotation :=
  shift a path (n - 1) (fs.unlink (backupName path n))

variable (a fs path) in
/-- **The ways out of `file_rotate_file`.** -/
theorem fileRotateFile_cases (hn : 1 ≤ n) :
    let r := loop a fs path n
    let ops := dropped fs (backupName path n) ++ r.ops
    (a.unlink = false ∧ fileRotateFile a fs path n = ⟨eacces, [], fs⟩) ∨
      (r.ret ≠ 0 ∧ fileRotateFile a fs path n = ⟨r.ret, ops, r.files⟩) ∨
      (r.ret = 0 ∧ r.files path = none ∧ fileRotateFile a fs path n = ⟨enoent, ops, r.files⟩) ∨
      (a.rename 0 = false ∧ fileRotateFile a fs path n = ⟨eacces, ops, r.files⟩) ∨
      (r.ret = 0 ∧ (r.files path).isSome ∧ fileRotateFile a fs path n =
        ⟨0, ops ++ [.rename path (backupName path 1)],
          r.files.rename path (backupName path 1)⟩) := by
  have hn' : ¬ (n : ℤ) ≤ 0 := by omega
  simp only [fileRotateFile, if_neg hn', Int.toNat_natCast]
  split_ifs with hunlink hret hsome hrename
  · exact .inl ⟨hunlink, rfl⟩
  · exact .inr (.inl ⟨hret, rfl⟩)
  · exact .inr (.inr (.inl ⟨not_not.1 hret, by simpa using hsome, rfl⟩))
  · exact .inr (.inr (.inr (.inl ⟨hrename, rfl⟩)))
  · exact .inr (.inr (.inr (.inr ⟨not_not.1 hret, Bool.eq_true_of_not_eq_false hsome, rfl⟩)))

/-- The rotation without failures, by what its loop leaves. -/
theorem fileRotateFile_eq (hn : 1 ≤ n) (h : (loop a fs path n).ret = 0) :
    File.fileRotateFile fs path n =
      if ((loop a fs path n).files path).isSome then
        (0, (loop a fs path n).files.rename path (backupName path 1))
      else (enoent, (loop a fs path n).files) := by
  rw [files_shift _ h, File.fileRotateFile, if_neg (by omega), Int.toNat_natCast]

/-- **A rotation that returns `0` is the rotation of the sink without failures.** -/
theorem files_of_ret (hn : 1 ≤ n) (h : (fileRotateFile a fs path n).ret = 0) :
    File.fileRotateFile fs path n = (0, (fileRotateFile a fs path n).files) := by
  rcases fileRotateFile_cases a fs path hn with
    ⟨-, heq⟩ | ⟨hret, heq⟩ | ⟨-, -, heq⟩ | ⟨-, heq⟩ | ⟨hret, hsome, heq⟩
  · rw [heq] at h; cases h
  · rw [heq] at h; exact absurd h hret
  · rw [heq] at h; cases h
  · rw [heq] at h; cases h
  · rw [heq, fileRotateFile_eq hn hret, if_pos hsome]

/-- **A rotation whose operations are all granted is the rotation without failures.** -/
theorem fileRotateFile_of_granted (hn : 1 ≤ n) (hunlink : a.unlink = true)
    (hrename : ∀ i < n, a.rename i = true) :
    (fileRotateFile a fs path n).files = (File.fileRotateFile fs path n).2 := by
  have hloop : (loop a fs path n).ret = 0 := ret_shift (fun i hi => hrename i (by omega)) _
  rw [fileRotateFile_eq hn hloop]
  rcases fileRotateFile_cases a fs path hn with
    ⟨hun, -⟩ | ⟨hret, -⟩ | ⟨-, hnone, heq⟩ | ⟨hren, -⟩ | ⟨-, hsome, heq⟩
  · rw [hunlink] at hun; cases hun
  · exact absurd hloop hret
  · rw [heq, hnone]; rfl
  · rw [hrename 0 hn] at hren; cases hren
  · rw [heq, if_pos hsome]

end Cases

/-- The operations of a rotation of the sink are all granted. -/
def Granted (a : Answers) (n : ℕ) : Prop := a.unlink = true ∧ ∀ i < n, a.rename i = true

instance (a : Answers) (n : ℕ) : Decidable (Granted a n) := inferInstanceAs (Decidable (_ ∧ _))

theorem rotate_of_granted {a : Answers} {s : Sink} (h : Granted a s.backups.toNat) :
    rotate a s = s.rotate := by
  have hfiles : (fileRotateFile a s.files s.path s.backups).files =
      (File.fileRotateFile s.files s.path s.backups).2 := by
    rcases Int.lt_or_le 0 s.backups with hpos | hneg
    · rw [← Int.toNat_of_nonneg hpos.le]
      exact fileRotateFile_of_granted (by omega) h.1 h.2
    · rw [fileRotateFile, File.fileRotateFile, if_pos hneg, if_pos hneg]
  simp only [rotate, Sink.rotate, hfiles]

/-- **A `file_write` that succeeds is the same where nothing fails.** -/
theorem fileWrite_of_some {accepts : ℕ → ℕ} {s t : Sink} {buf : List UInt8}
    (hsize : ((s.files s.path).getD []).length ≤ maxFileSize)
    (h : File.fileWrite accepts s buf = some t) : (fileWrite {} s buf).2 = t := by
  obtain ⟨u, hu, rfl⟩ := Option.map_eq_some_iff.1 h
  obtain ⟨rfl, -⟩ := writeLoop_spec _ hu hsize
  have hrotate (s : Sink) : rotate {} s = s.rotate := rotate_of_granted ⟨rfl, fun _ _ => rfl⟩
  simp only [fileWrite, writeLoop, hrotate, Bool.false_eq_true, if_false]

/-! ### The counter -/

/-- No name of a backup is the path itself, but for a path that fills the buffer: then all are. -/
theorem backupName_eq_self_iff {path : Text} {i : ℕ} :
    backupName path i = path ↔ path.length = 511 := by
  rw [backupName, cut, List.append_assoc]
  constructor
  · intro h
    have hlen := congrArg List.length h
    simp only [List.length_take, List.length_append, str] at hlen
    simp at hlen
    omega
  · intro h
    rw [List.take_append_of_le_length (by omega), List.take_of_length_le (by omega)]

/-- **After a rotation without failures there is no active file,** whatever its name. -/
theorem fileRotateFile_active {fs : Files} {path : Text} {n : ℕ} (hn : 1 ≤ n) :
    (File.fileRotateFile fs path n).2 path = none := by
  rw [File.fileRotateFile, if_neg (by omega), Int.toNat_natCast]
  by_cases hpath : path.length = 511
  · -- the `unlink` has removed the active file, and there is nothing to rename
    have hname (i : ℕ) : backupName path i = path := backupName_eq_self_iff.2 hpath
    have hshift (k : ℕ) : ∀ {f : Files}, f path = none → File.shift path k f path = none := by
      induction k with
      | zero => exact fun h => h
      | succ k ih =>
        intro f hf
        rw [File.shift, hname, hname, hf]
        exact ih hf
    have hnone : File.shift path (n - 1) (fs.unlink (backupName path n)) path = none :=
      hshift _ (by rw [hname]; exact Function.update_self ..)
    simp only [hnone, Option.isSome_none, Bool.false_eq_true, if_false]
  · have hne : path ≠ backupName path 1 := fun h => hpath (backupName_eq_self_iff.1 h.symm)
    dsimp only
    split_ifs with hsome
    · rw [Files.rename, if_neg hne]
      exact Function.update_self ..
    · simpa using hsome

/-- The sink is open, and `current_size` is the length of the active file. -/
structure Tracked (s : Sink) : Prop where
  isOpen : (s.files s.path).isSome
  size : s.currentSize = ((s.files s.path).getD []).length

/-- **A rotation that goes through leaves an empty file,** and the counter at zero. -/
theorem tracked_rotate {a : Answers} {s : Sink} (hback : 1 ≤ s.backups)
    (h : Granted a s.backups.toNat) : Tracked (rotate a s) := by
  have hgone : (File.fileRotateFile s.files s.path s.backups).2 s.path = none := by
    rw [← Int.toNat_of_nonneg (zero_le_one.trans hback)]
    exact fileRotateFile_active (by omega)
  have hnew : s.rotate.files s.path = some [] := by
    simp only [Sink.rotate, Files.openAppend, Function.update_self, hgone, Option.getD_none]
  rw [rotate_of_granted h]
  exact ⟨Option.isSome_of_eq_some hnew, (congrArg (fun f => (f.getD []).length) hnew).symm⟩

/-- A call of `file_write`. -/
structure Call where
  buf : List UInt8
  answers : Answers

/-- The bytes that a call brings into the file. -/
def Call.taken (c : Call) : List UInt8 := (writeLoop c.answers.fwrites c.buf).1

/-- One call; no file is longer than the system's largest. -/
def step (s : Sink) (c : Call) : Option Sink :=
  if maxFileSize < ((s.files s.path).getD []).length + c.taken.length then none
  else some (fileWrite c.answers s c.buf).2

/-- A call that keeps the counter: no `fwrite` but its first may fail with an error, and if the
buffer can bring the file to `max_size`, there are backups and the rotation is granted. -/
structure Keeps (s : Sink) (c : Call) : Prop where
  fwrites : ∀ o ∈ c.answers.fwrites.tail, ¬ (o.count = 0 ∧ o.ferror = true)
  rotates : 0 < s.maxSize → s.maxSize ≤ s.currentSize + c.buf.length →
    1 ≤ s.backups ∧ Granted c.answers s.backups.toNat

instance (s : Sink) (c : Call) : Decidable (Keeps s c) :=
  decidable_of_iff
    ((∀ o ∈ c.answers.fwrites.tail, ¬ (o.count = 0 ∧ o.ferror = true)) ∧
      (0 < s.maxSize → s.maxSize ≤ s.currentSize + c.buf.length →
        1 ≤ s.backups ∧ Granted c.answers s.backups.toNat))
    ⟨fun h => ⟨h.1, h.2⟩, fun h => ⟨h.1, h.2⟩⟩

theorem writeLoop_of_no_error (os : List Fwrite) : ∀ (buf : List UInt8),
    (∀ o ∈ os, ¬ (o.count = 0 ∧ o.ferror = true)) → (writeLoop os buf).2 = false := by
  induction os with
  | nil => intro buf _; rfl
  | cons o os ih =>
    intro buf h
    cases buf with
    | nil => rfl
    | cons b rest =>
      have ho := h o (List.mem_cons_self ..)
      rw [writeLoop]
      split_ifs with hn
      · have hcount : o.count = 0 := by omega
        simpa [hcount] using ho
      · exact ih _ fun o' ho' => h o' (List.mem_cons_of_mem _ ho')

/-- A loop that only fails at its first `fwrite` has taken nothing when it fails. -/
theorem writeLoop_failed {os : List Fwrite} {buf : List UInt8}
    (h : ∀ o ∈ os.tail, ¬ (o.count = 0 ∧ o.ferror = true)) (hfail : (writeLoop os buf).2 = true) :
    (writeLoop os buf).1 = [] := by
  cases os with
  | nil => cases hfail
  | cons o os =>
    cases buf with
    | nil => cases hfail
    | cons b rest =>
      rw [writeLoop] at hfail ⊢
      split_ifs at hfail ⊢ with hn
      · rfl
      · rw [writeLoop_of_no_error os _ h] at hfail
        cases hfail

theorem length_writeLoop_le (os : List Fwrite) : ∀ buf : List UInt8,
    (writeLoop os buf).1.length ≤ buf.length := by
  induction os with
  | nil => intro buf; exact le_rfl
  | cons o os ih =>
    intro buf
    cases buf with
    | nil => exact le_rfl
    | cons b rest =>
      have htail := ih ((b :: rest).drop (min o.count (rest.length + 1)))
      rw [writeLoop]
      split_ifs with hn
      · exact Nat.zero_le _
      · simp only [List.length_append, List.length_take, List.length_drop] at htail ⊢
        simp only [List.length_cons] at htail ⊢
        omega

/-- **A call that meets the condition keeps the counter exact.** -/
theorem Tracked.step {s s' : Sink} {c : Call} (h : Tracked s) (hc : Keeps s c)
    (hs : step s c = some s') : Tracked s' := by
  rw [Faults.step] at hs
  split_ifs at hs with hmax
  cases hs
  rw [fileWrite]
  split_ifs with hfail
  · -- the error return: nothing was written
    have hnil : (writeLoop c.answers.fwrites c.buf).1 = [] := writeLoop_failed hc.fwrites hfail
    simp only [hnil, Files.append_nil]
    exact h
  dsimp only
  split_ifs with hrot
  · -- the rotation moves the active file away
    have hbytes := length_writeLoop_le c.answers.fwrites c.buf
    have hreach := hrot.2.trans (Nat.mod_le ..)
    obtain ⟨hback, hgranted⟩ := hc.rotates hrot.1 (by omega)
    exact tracked_rotate hback hgranted
  · obtain ⟨content, hcontent⟩ := Option.isSome_iff_exists.1 h.isOpen
    have hafter : s.files.append s.path c.taken s.path = some (content ++ c.taken) := by
      rw [Files.append_self, hcontent]
      rfl
    have hsize : (s.currentSize + c.taken.length) % 2 ^ 64 = (content ++ c.taken).length := by
      rw [hcontent, Option.getD_some] at hmax
      rw [h.size, hcontent, Option.getD_some, List.length_append]
      refine Nat.mod_eq_of_lt ((not_lt.1 hmax).trans_lt ?_)
      norm_num [maxFileSize]
    exact ⟨Option.isSome_of_eq_some hafter,
      hsize.trans (congrArg (fun f => (f.getD []).length) hafter).symm⟩

theorem tracked_create {files : Files} {path : Text} {maxSize : ℕ} {backups : ℤ} {s : Sink}
    (h : fileSinkCreate files path maxSize backups = some s) : Tracked s := by
  rw [fileSinkCreate] at h
  split_ifs at h
  cases h
  exact ⟨by simp [Files.openAppend], rfl⟩

/-- **The counter is the length of the active file,** after every call of every sequence whose
calls meet the condition, whatever they return. -/
theorem currentSize_eq_length {files : Files} {path : Text} {maxSize : ℕ} {backups : ℤ}
    {s₀ s : Sink} (h₀ : fileSinkCreate files path maxSize backups = some s₀)
    (hs : Reach step Keeps s₀ s) : s.currentSize = ((s.files s.path).getD []).length :=
  (Reach.invariant (I := Tracked) (tracked_create h₀) (fun _ _ _ h hc h' => h.step hc h') hs).size

/-- A sink on a file that did not exist. -/
def freshSink (maxSize : ℕ) (backups : ℤ) : Sink :=
  ⟨Files.openAppend (fun _ => none) (str "a"), str "a", maxSize, 0, backups⟩

/-- A short `fwrite`, an error at the start of a call, and a rotation. -/
theorem currentSize_eq_length_rotation :
    fileSinkCreate (fun _ => none) (str "a") 3 2 = some (freshSink 3 2) ∧
      ∃ s, Reach step Keeps (freshSink 3 2) s ∧
        (s.files (str "a.1") = some (str "abcd") ∧ s.files (str "a") = some (str "e")) ∧
        s.currentSize = ((s.files s.path).getD []).length := by
  have hcreate : fileSinkCreate (fun _ => none) (str "a") 3 2 = some (freshSink 3 2) := rfl
  have hrun : ∃ s, Reach step Keeps (freshSink 3 2) s ∧
      (s.files (str "a.1") = some (str "abcd") ∧ s.files (str "a") = some (str "e")) :=
    exists_of_runIf [⟨str "ab", ⟨[⟨1, false⟩], true, fun _ => true⟩⟩,
      ⟨str "x", ⟨[⟨0, true⟩], true, fun _ => true⟩⟩, ⟨str "cd", {}⟩,
      ⟨str "e", ⟨[], false, fun _ => false⟩⟩] (by decide +kernel)
  obtain ⟨s, hs, hfiles⟩ := hrun
  exact ⟨hcreate, s, hs, hfiles, currentSize_eq_length hcreate hs⟩

/-- **The counter is lost** by a rotation without backups, which leaves the file where it is, and
by an error after a part of the buffer was written. -/
theorem currentSize_lost :
    (fileSinkCreate (fun _ => none) (str "a") 3 0 = some (freshSink 3 0) ∧
      ∃ s, Reachable step (freshSink 3 0) s ∧
        s.currentSize = 0 ∧ s.files s.path = some (str "abc")) ∧
    fileSinkCreate (fun _ => none) (str "a") 3 1 = some (freshSink 3 1) ∧
      ∃ s, Reachable step (freshSink 3 1) s ∧
        s.currentSize = 0 ∧ s.files s.path = some (str "ab") := by
  refine ⟨⟨rfl, ?_⟩, rfl, ?_⟩
  · exact exists_of_run [⟨str "abc", {}⟩] (by decide +kernel)
  · exact exists_of_run [⟨str "abc", ⟨[⟨2, false⟩, ⟨0, true⟩], true, fun _ => true⟩⟩]
      (by decide +kernel)

/-! ### The names of a rotation -/

/-- The name that the backup of a number should have. -/
def fullName (path : Text) (i : ℕ) : Text := path ++ str "." ++ decimal i

/-- **A rotation keeps to its own names:** it does not unlink the active file, renames only a backup
to the next and the active file to the first, and when it returns `0` every file but the last
backup is still there, each under a name of its own. -/
structure OwnNames (path : Text) (n : ℕ) (fs : Files) (r : Rotation) : Prop where
  active : Op.unlink path ∉ r.ops
  renames : ∀ src dst, Op.rename src dst ∈ r.ops →
    (∃ i, 1 ≤ i ∧ i < n ∧ src = fullName path i ∧ dst = fullName path (i + 1)) ∨
      (src = path ∧ dst = fullName path 1)
  kept : r.ret = 0 → ∃ moved : Text → Text,
    Set.InjOn moved {p | (fs p).isSome ∧ p ≠ fullName path n} ∧
      ∀ p, (fs p).isSome → p ≠ fullName path n → r.files (moved p) = fs p

/-- The backups of the chain do not exist: there is nothing to shift. -/
theorem shift_of_none {a : Answers} {path : Text} (k : ℕ) {fs : Files}
    (h : ∀ i, 1 ≤ i → i ≤ k → fs (backupName path i) = none) : shift a path k fs = ⟨0, [], fs⟩ := by
  induction k with
  | zero => rfl
  | succ k ih =>
    rw [shift, h (k + 1) (by omega) le_rfl]
    exact ih fun i hi hik => h i hi (by omega)

/-- What the loop renames. -/
theorem mem_ops_shift {a : Answers} {path : Text} {n : ℕ} (hfits : Fits path n) (k : ℕ) :
    ∀ {fs : Files} {op : Op}, k + 1 ≤ n → op ∈ (shift a path k fs).ops →
      ∃ i, 1 ≤ i ∧ i < n ∧ op = .rename (fullName path i) (fullName path (i + 1)) := by
  induction k with
  | zero => intro fs op _ h; cases h
  | succ k ih =>
    intro fs op hn h
    rw [shift] at h
    dsimp only at h
    split_ifs at h
    · rcases List.mem_cons.1 h with rfl | h
      · refine ⟨k + 1, by omega, by omega, ?_⟩
        rw [backupName_eq hfits (by omega) (by omega), backupName_eq hfits (by omega) (by omega)]
        rfl
      · exact ih (by omega) h
    · cases h
    · exact ih (by omega) h

/-- The name of a file after a rotation. -/
def nextName (path : Text) (n : ℕ) (p : Text) : Text :=
  match (List.range n).find? fun i => p = fileName path i with
  | some i => fileName path (i + 1)
  | none => p

theorem fileName_inj {path : Text} {n : ℕ} (hfits : Fits path n) {i j : ℕ} (hi : i ≤ n)
    (hj : j ≤ n) (h : fileName path i = fileName path j) : i = j := by
  cases i with
  | zero =>
    cases j with
    | zero => rfl
    | succ j => exact absurd h.symm (backupName_ne hfits (by omega) hj)
  | succ i =>
    cases j with
    | zero => exact absurd h (backupName_ne hfits (by omega) hi)
    | succ j => exact backupName_inj hfits (by omega) (by omega) hi hj h

/-- A file of the chain moves up, another one stays. -/
theorem nextName_cases (path : Text) (n : ℕ) (p : Text) :
    (∃ i < n, p = fileName path i ∧ nextName path n p = fileName path (i + 1)) ∨
      ((∀ i < n, p ≠ fileName path i) ∧ nextName path n p = p) := by
  rw [nextName]
  cases hfind : (List.range n).find? fun i => p = fileName path i with
  | some i =>
    have hi := List.mem_of_find?_eq_some hfind
    have hp := List.find?_some hfind
    exact .inl ⟨i, List.mem_range.1 hi, of_decide_eq_true hp, rfl⟩
  | none =>
    refine .inr ⟨fun i hi heq => ?_, rfl⟩
    have hp := List.find?_eq_none.1 hfind i (List.mem_range.2 hi)
    exact hp (decide_eq_true heq)

/-- **No two files get the same name,** the last backup apart, which is dropped. -/
theorem nextName_injOn {path : Text} {n : ℕ} (hfits : Fits path n) :
    Set.InjOn (nextName path n) {p | p ≠ fileName path n} := by
  intro p hp q hq heq
  rcases nextName_cases path n p with ⟨i, hi, rfl, hpi⟩ | ⟨hpn, hpp⟩ <;>
    rcases nextName_cases path n q with ⟨j, hj, rfl, hqj⟩ | ⟨hqn, hqq⟩
  · rw [hpi, hqj] at heq
    have hij := fileName_inj hfits hi hj heq
    rw [Nat.succ.inj hij]
  · rw [hpi, hqq] at heq
    rcases (Nat.succ_le_of_lt hi).lt_or_eq with hlt | hlast
    · exact absurd heq.symm (hqn _ hlt)
    · exact absurd (heq.symm.trans (congrArg _ hlast)) hq
  · rw [hpp, hqj] at heq
    rcases (Nat.succ_le_of_lt hj).lt_or_eq with hlt | hlast
    · exact absurd heq (hpn _ hlt)
    · exact absurd (heq.trans (congrArg _ hlast)) hp
  · rwa [hpp, hqq] at heq

theorem fileName_eq {path : Text} {n : ℕ} (hn : 1 ≤ n) (hfits : Fits path n) :
    fileName path n = fullName path n := by
  obtain ⟨k, rfl⟩ := Nat.exists_eq_add_of_le' hn
  exact backupName_eq hfits (by omega) le_rfl

/-- A rotation whose names fit keeps to them. -/
theorem ownNames_of_fits {path : Text} {n : ℕ} (hn : 1 ≤ n) (hfits : Fits path n) (a : Answers)
    (fs : Files) : OwnNames path n fs (fileRotateFile a fs path n) := by
  have hfirst : backupName path 1 = fullName path 1 := backupName_eq hfits one_ne_zero hn
  -- the operations before the active file is moved
  have hops {op : Op} (h : op ∈ dropped fs (backupName path n) ++ (loop a fs path n).ops) :
      op = .unlink (fullName path n) ∨
        ∃ i, 1 ≤ i ∧ i < n ∧ op = .rename (fullName path i) (fullName path (i + 1)) := by
    rcases List.mem_append.1 h with h | h
    · rw [dropped] at h
      split_ifs at h
      · rw [List.mem_singleton.1 h, backupName_eq hfits (by omega) le_rfl]
        exact .inl rfl
      · cases h
    · exact .inr (mem_ops_shift hfits _ (by omega) h)
  have hall {op : Op} (h : op ∈ (fileRotateFile a fs path n).ops) :
      op = .unlink (fullName path n) ∨
        (∃ i, 1 ≤ i ∧ i < n ∧ op = .rename (fullName path i) (fullName path (i + 1))) ∨
        op = .rename path (fullName path 1) := by
    rcases fileRotateFile_cases a fs path hn with
      ⟨-, heq⟩ | ⟨-, heq⟩ | ⟨-, -, heq⟩ | ⟨-, heq⟩ | ⟨-, -, heq⟩ <;> rw [heq] at h
    · cases h
    · exact (hops h).imp_right .inl
    · exact (hops h).imp_right .inl
    · exact (hops h).imp_right .inl
    · rcases List.mem_append.1 h with h | h
      · exact (hops h).imp_right .inl
      · rw [List.mem_singleton.1 h, hfirst]
        exact .inr (.inr rfl)
  refine ⟨fun h => ?_, fun src dst h => ?_, fun hret => ⟨nextName path n, ?_, fun p hp hne => ?_⟩⟩
  · rcases hall h with h | ⟨i, -, -, h⟩ | h
    · have hlast := Op.unlink.inj h
      rw [← fileName_eq hn hfits] at hlast
      have := fileName_inj hfits (Nat.zero_le n) le_rfl hlast
      omega
    · cases h
    · cases h
  · rcases hall h with h | ⟨i, hi, hin, h⟩ | h
    · cases h
    · obtain ⟨rfl, rfl⟩ := Op.rename.inj h
      exact .inl ⟨i, hi, hin, rfl, rfl⟩
    · obtain ⟨rfl, rfl⟩ := Op.rename.inj h
      exact .inr ⟨rfl, rfl⟩
  · refine (nextName_injOn hfits).mono fun p hp => ?_
    rw [Set.mem_ofPred_eq, fileName_eq hn hfits]
    exact hp.2
  · have hrot := files_of_ret hn hret
    have hopen : (fs path).isSome := by
      by_contra hnone
      rw [fileRotateFile_fits hn hfits, if_neg hnone] at hrot
      cases congrArg Prod.fst hrot
    obtain ⟨hmoved, -, hrest⟩ := fileRotateFile_spec hn hfits hopen
    rw [hrot] at hmoved hrest
    rcases nextName_cases path n p with ⟨i, hi, rfl, hnext⟩ | ⟨hother, hnext⟩
    · rw [hnext]
      exact hmoved i hi
    · rw [hnext]
      refine hrest p fun i hin heq => ?_
      rcases hin.lt_or_eq with hlt | rfl
      · exact hother i hlt heq
      · exact hne (heq.trans (fileName_eq hn hfits))

/-- A file with the name of the oldest backup is unlinked. -/
theorem unlink_mem_ops {fs : Files} {path : Text} {n : ℕ} (hn : 1 ≤ n) (a : Answers)
    (hunlink : a.unlink = true) (h : (fs (backupName path n)).isSome) :
    Op.unlink (backupName path n) ∈ (fileRotateFile a fs path n).ops := by
  have hmem (ops : List Op) :
      Op.unlink (backupName path n) ∈ dropped fs (backupName path n) ++ ops := by
    rw [dropped, if_pos h]
    exact List.mem_cons_self ..
  rcases fileRotateFile_cases a fs path hn with
    ⟨hun, -⟩ | ⟨-, heq⟩ | ⟨-, -, heq⟩ | ⟨-, heq⟩ | ⟨-, -, heq⟩
  · rw [hunlink] at hun; cases hun
  all_goals rw [heq]
  · exact hmem _
  · exact hmem _
  · exact hmem _
  · exact List.mem_append_left _ (hmem _)

/-- The active file, and a file with the name that the oldest backup is given. -/
def oldestAndActive (path oldest : Text) : Files :=
  Function.update (Function.update (fun _ => none) path (some [1])) oldest (some [0])

/-- The rotation of these two files drops the second. -/
theorem rotate_oldestAndActive {path : Text} {n : ℕ} (hn : 1 ≤ n) (hpath : path.length ≠ 511) :
    let r := fileRotateFile {} (oldestAndActive path (backupName path n)) path n
    r.ret = 0 ∧ ∀ p, r.files p ≠ some [0] := by
  set fs := oldestAndActive path (backupName path n) with hfs
  have hname (i : ℕ) : backupName path i ≠ path := fun h => hpath (backupName_eq_self_iff.1 h)
  have hunlinked : fs.unlink (backupName path n) =
      Function.update (fun _ => none) path (some [1]) := by
    rw [hfs, oldestAndActive, Files.unlink, Function.update_idem, Function.update_eq_self_iff,
      Function.update_of_ne (hname n)]
  have hloop : loop {} fs path n = ⟨0, [], fs.unlink (backupName path n)⟩ := by
    refine shift_of_none _ fun i _ _ => ?_
    rw [hunlinked, Function.update_of_ne (hname i)]
  rcases fileRotateFile_cases {} fs path hn with
    ⟨hun, -⟩ | ⟨hret, -⟩ | ⟨-, hnone, -⟩ | ⟨hren, -⟩ | ⟨-, -, heq⟩
  · cases hun
  · exact absurd (congrArg Rotation.ret hloop) hret
  · rw [hloop, hunlinked] at hnone
    dsimp only at hnone
    rw [Function.update_self] at hnone
    cases hnone
  · cases hren
  · rw [heq, hloop]
    refine ⟨rfl, fun p => ?_⟩
    simp only [Files.rename, if_neg (hname 1).symm, hunlinked, Function.update_self,
      Function.update_apply]
    split_ifs <;> simp

/-- **A rotation keeps to its own names exactly where the names fit their buffers:** on all files
and with all answers, and with different names for different backups. -/
theorem ownNames_iff {path : Text} {n : ℕ} (hn : 1 ≤ n) :
    ((∀ a fs, OwnNames path n fs (fileRotateFile a fs path n)) ∧
      ∀ i j, 1 ≤ i → i ≤ n → 1 ≤ j → j ≤ n → backupName path i = backupName path j → i = j) ↔
      Fits path n := by
  constructor
  · rintro ⟨hown, -⟩
    by_contra hfits
    set fs := oldestAndActive path (backupName path n) with hfs
    have holdest : fs (backupName path n) = some [0] := Function.update_self ..
    have hsome : (fs (backupName path n)).isSome := by rw [holdest]; rfl
    by_cases hpath : path.length = 511
    · -- the `unlink` is of the active file
      refine (hown {} fs).active ?_
      have hmem := unlink_mem_ops hn {} rfl hsome
      rwa [backupName_eq_self_iff.2 hpath] at hmem
    · -- the `unlink` is of a file that is not the last backup
      have hne : backupName path n ≠ fullName path n := fun heq => by
        have hlen := congrArg List.length heq
        rw [Fits] at hfits
        rw [backupName, cut, List.length_take, fullName] at hlen
        omega
      obtain ⟨hret, hgone⟩ := rotate_oldestAndActive hn hpath
      obtain ⟨moved, -, hkept⟩ := (hown {} fs).kept hret
      exact hgone _ ((hkept _ hsome hne).trans holdest)
  · exact fun hfits => ⟨ownNames_of_fits hn hfits, fun i j hi hin hj hjn heq =>
      backupName_inj hfits (by omega) (by omega) hin hjn heq⟩

/-- Ten backups of a path of 508 bytes are the most that fit. -/
theorem ownNames_iff_ten :
    Fits (List.replicate 508 97) 10 ∧
      ∀ a fs, OwnNames (List.replicate 508 97) 10 fs
        (fileRotateFile a fs (List.replicate 508 97) 10) := by
  have hfits : Fits (List.replicate 508 97) 10 := by decide +kernel
  exact ⟨hfits, ((ownNames_iff (by norm_num)).2 hfits).1⟩

/-- **A name too long:** with a path of 509 bytes the tenth backup is printed as the first, and
with one of 511 bytes the rotation unlinks the active file. -/
theorem ownNames_lost :
    backupName (List.replicate 509 97) 10 = backupName (List.replicate 509 97) 1 ∧
      Op.unlink (List.replicate 511 97) ∈ (fileRotateFile {}
        (Function.update (fun _ => none) (List.replicate 511 97) (some [0]))
        (List.replicate 511 97) 1).ops := by
  have hname : backupName (List.replicate 511 97) 1 = List.replicate 511 97 :=
    backupName_eq_self_iff.2 (List.length_replicate ..)
  have hsome : (Function.update (fun _ => none) (List.replicate 511 97) (some [0]) (backupName
      (List.replicate 511 97) 1) : Option (List UInt8)).isSome := by
    rw [hname, Function.update_self]
    rfl
  have hmem := unlink_mem_ops le_rfl {} rfl hsome
  rw [hname] at hmem
  exact ⟨by decide +kernel, hmem⟩

end Faults
end File
end Clogx
