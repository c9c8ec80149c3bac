/-
# The text of a second

`format_sec_cached` of `core/formatter.c` and `clog_format_iso_datetime` of
`core/fast_ascii.h`.  The time cache of a thread holds the text of one second in
one format, in an array of 64 bytes.

`localtime` is a function of the second, `strftime` writes its expansion if that
fits the array with its terminator; otherwise it returns 0, which the caller does
not look at, and what the array holds then is not specified (`leaves`).  Nor is it
for a year of more than four digits in the default format.  The text is read up to
the first zero byte, and a read that leaves the array is `none`.

A cache is `Coherent` if its text, when it has one and the expansion fits, is the
text of its second and format.  Every call keeps that, and from a coherent cache
a text that fits is the right one (`TimeCache.formatSecCached_of_fits`).
-/

import Clogx.Formatter.Append

namespace Clogx
namespace Formatter

open CLib

/-- An array of 64 characters. -/
abbrev Buf64 := {b : Block // b.length = 64}

namespace Buf64

/-- A string that fits is written, with its terminator. -/
def write (b : Buf64) (t : Text) (h : t.length < 64) : Buf64 :=
  ⟨t ++ 0 :: b.val.drop (t.length + 1), by
    have hb := b.property
    simp only [List.length_append, List.length_cons, List.length_drop]
    omega⟩

/-- The string in the array. -/
def text (b : Buf64) : Option Text := strAt b.val 0

theorem text_write (b : Buf64) (t : Text) (h : t.length < 64) :
    (b.write t h).text = some (t.takeWhile (· ≠ 0)) := by
  rw [text, strAt, List.drop_zero, if_pos (by simp [write])]
  rw [write, List.takeWhile_append, List.takeWhile_cons_of_neg (by simp), List.append_nil]
  split_ifs with hall
  · rw [List.takeWhile_sublist _ |>.eq_of_length hall]
  · rfl

/-- The array begins with the terminator. -/
def Blank (b : Buf64) : Prop := b.val[0]? = some 0

instance (b : Buf64) : Decidable b.Blank := inferInstanceAs (Decidable (_ = _))

end Buf64

/-- `struct tm`, as far as `clog_format_iso_datetime` reads it. -/
structure Tm where
  tmYear : ℤ
  tmMon : ℤ
  tmMday : ℤ
  tmHour : ℤ
  tmMin : ℤ
  tmSec : ℤ

/-- The time functions of the C library. -/
structure Libc where
  localtime : ℕ → Tm
  /-- What `strftime` writes for a format, if there is room. -/
  expansion : Text → Tm → CString

/-- `clog_u32toa_pad2`. -/
def clogU32toaPad2 (val : ℕ) : Text := digitPair (val % 100)

/-- `clog_u32toa_pad4`. -/
def clogU32toaPad4 (val : ℕ) : Text := digitPair (val / 100) ++ digitPair (val % 100)

/-- `clog_format_iso_datetime`. -/
def clogFormatIsoDatetime (tm : Tm) : Text :=
  clogU32toaPad4 ((tm.tmYear + 1900) % 2 ^ 32).toNat ++ [45] ++
    clogU32toaPad2 ((tm.tmMon + 1) % 2 ^ 32).toNat ++ [45] ++
    clogU32toaPad2 (tm.tmMday % 2 ^ 32).toNat ++ [32] ++
    clogU32toaPad2 (tm.tmHour % 2 ^ 32).toNat ++ [58] ++
    clogU32toaPad2 (tm.tmMin % 2 ^ 32).toNat ++ [58] ++
    clogU32toaPad2 (tm.tmSec % 2 ^ 32).toNat

/-- The year has at most four digits.  For another one `clog_u32toa_pad4` reads behind its table of
digit pairs. -/
def Tm.FourDigits (tm : Tm) : Prop := -1900 ≤ tm.tmYear ∧ tm.tmYear < 8100

instance (tm : Tm) : Decidable tm.FourDigits := inferInstanceAs (Decidable (_ ∧ _))

theorem length_clogFormatIsoDatetime (tm : Tm) : (clogFormatIsoDatetime tm).length = 19 := rfl

example : clogFormatIsoDatetime ⟨125, 0, 31, 23, 5, 9⟩ = str "2025-01-31 23:05:09" := by decide

/-- `"%Y-%m-%d %H:%M:%S"`. -/
def isoFormat : Text := str "%Y-%m-%d %H:%M:%S"

/-- `clog_time_cache_t`, whose format stands in an array of 64 bytes too. -/
structure TimeCache where
  sec : ℕ
  timeFormat : Text
  formatted : Buf64
  size : timeFormat.length < 64

/-- The cache of a new thread. -/
def TimeCache.empty : TimeCache := ⟨0, [], ⟨List.replicate 64 0, rfl⟩, by decide⟩

/-- `strftime` into the array of the cache; `leaves` is what becomes of it if the expansion does
not fit. -/
def strftime (libc : Libc) (leaves : Buf64 → Buf64) (b : Buf64) (fmt : Text) (tm : Tm) : Buf64 :=
  if h : (libc.expansion fmt tm).val.length < 64 then b.write _ h else leaves b

/-- `clog_format_iso_datetime` into the array of the cache. -/
def isoDatetime (leaves : Buf64 → Buf64) (b : Buf64) (tm : Tm) : Buf64 :=
  if tm.FourDigits then
    b.write (clogFormatIsoDatetime tm) (by
      rw [length_clogFormatIsoDatetime]
      norm_num)
  else leaves b

/-- The cache is filled again. -/
def TimeCache.refresh (libc : Libc) (leaves : Buf64 → Buf64) (c : TimeCache) (sec : ℕ)
    (fmt : Text) : TimeCache where
  sec := sec
  timeFormat := cut 64 fmt
  formatted :=
    if fmt = isoFormat then isoDatetime leaves c.formatted (libc.localtime sec)
    else strftime libc leaves c.formatted fmt (libc.localtime sec)
  size := length_cut_lt (by norm_num) fmt

/-- `format_sec_cached`: what it stores in `out_str`, and the cache afterwards. -/
def formatSecCached (libc : Libc) (leaves : Buf64 → Buf64) (c : TimeCache) (sec : ℕ)
    (fmt : Option Text) (outStrSize : ℕ) : Option (Text × TimeCache) :=
  let fmt := fmt.getD isoFormat
  let c :=
    if sec ≠ c.sec ∨ fmt ≠ c.timeFormat ∨ c.formatted.Blank then c.refresh libc leaves sec fmt
    else c
  c.formatted.text.map fun t => (cut outStrSize t, c)

/-- The text of a second in a format. -/
def secText (libc : Libc) (sec : ℕ) (fmt : Text) : Text :=
  if fmt = isoFormat then (clogFormatIsoDatetime (libc.localtime sec)).takeWhile (· ≠ 0)
  else libc.expansion fmt (libc.localtime sec)

/-- The text fits the array of the cache; in the default format, that is, its year has at most four
digits. -/
def SecFits (libc : Libc) (sec : ℕ) (fmt : Text) : Prop :=
  if fmt = isoFormat then (libc.localtime sec).FourDigits
  else (libc.expansion fmt (libc.localtime sec)).val.length < 64

instance (libc : Libc) (sec : ℕ) (fmt : Text) : Decidable (SecFits libc sec fmt) := by
  unfold SecFits
  infer_instance

theorem length_secText {libc : Libc} {sec : ℕ} {fmt : Text} (h : SecFits libc sec fmt) :
    (secText libc sec fmt).length < 64 := by
  rw [SecFits] at h
  rw [secText]
  split_ifs at h ⊢
  · have hle := (List.takeWhile_sublist (fun c : UInt8 => decide (c ≠ 0))
      (l := clogFormatIsoDatetime (libc.localtime sec))).length_le
    rw [length_clogFormatIsoDatetime] at hle
    omega
  · exact h

namespace TimeCache

/-- A text that is in the cache, and fits, is that of its second and format. -/
def Coherent (libc : Libc) (c : TimeCache) : Prop :=
  ¬ c.formatted.Blank → SecFits libc c.sec c.timeFormat →
    c.formatted.text = some (secText libc c.sec c.timeFormat)

/-- A text that is in the cache has fitted. -/
def Fitted (libc : Libc) (c : TimeCache) : Prop :=
  ¬ c.formatted.Blank → SecFits libc c.sec c.timeFormat

theorem coherent_empty (libc : Libc) : empty.Coherent libc := fun h => absurd rfl h

theorem fitted_empty (libc : Libc) : empty.Fitted libc := fun h => absurd rfl h

variable {libc : Libc} {leaves : Buf64 → Buf64} {c : TimeCache} {sec : ℕ} {fmt : Text}

theorem text_refresh (h : SecFits libc sec fmt) :
    (c.refresh libc leaves sec fmt).formatted.text = some (secText libc sec fmt) := by
  rw [SecFits] at h
  rw [refresh, secText]
  split_ifs at h ⊢
  · rw [isoDatetime, if_pos h, Buf64.text_write]
  · have hzero := (libc.expansion fmt (libc.localtime sec)).property
    rw [strftime, dif_pos h, Buf64.text_write, List.takeWhile_eq_self_iff.2]
    intro x hx
    simpa using fun hx0 : x = 0 => hzero (hx0 ▸ hx)

/-- After a call the cache is for this second and format. -/
theorem key_of_formatSecCached (hfmt : fmt.length < 64) {size : ℕ} {t : Text} {c' : TimeCache}
    (h : formatSecCached libc leaves c sec (some fmt) size = some (t, c')) :
    c'.sec = sec ∧ c'.timeFormat = fmt ∧
      (c' = c ∧ ¬ c.formatted.Blank ∨ c' = c.refresh libc leaves sec fmt) := by
  obtain ⟨text, -, heq⟩ := Option.map_eq_some_iff.1 h
  obtain ⟨-, rfl⟩ := Prod.mk.inj heq
  rw [Option.getD_some]
  split_ifs with hmiss
  · exact ⟨rfl, cut_of_length_lt hfmt, .inr rfl⟩
  · simp only [ne_eq, not_or, not_not] at hmiss
    exact ⟨hmiss.1.symm, hmiss.2.1.symm, .inl ⟨rfl, hmiss.2.2⟩⟩

/-- **Every call leaves a coherent cache,** also one whose text does not fit. -/
theorem Coherent.formatSecCached (hc : c.Coherent libc) (hfmt : fmt.length < 64) {size : ℕ}
    {t : Text} {c' : TimeCache}
    (h : Formatter.formatSecCached libc leaves c sec (some fmt) size = some (t, c')) :
    c'.Coherent libc := by
  obtain ⟨hsec, hformat, ⟨rfl, -⟩ | rfl⟩ := key_of_formatSecCached hfmt h
  · exact hc
  · intro _ hfits
    rw [hsec, hformat] at hfits ⊢
    exact text_refresh hfits

/-- A call whose text fits leaves a text that has fitted. -/
theorem Fitted.formatSecCached (hfmt : fmt.length < 64) (hfits : SecFits libc sec fmt) {size : ℕ}
    {t : Text} {c' : TimeCache}
    (h : Formatter.formatSecCached libc leaves c sec (some fmt) size = some (t, c')) :
    c'.Fitted libc := by
  obtain ⟨hsec, hformat, -⟩ := key_of_formatSecCached hfmt h
  intro _
  rwa [hsec, hformat]

/-- **A text that fits is the text of the second,** whatever was formatted before.  A format that
does not fit the cache is never found there. -/
theorem formatSecCached_of_fits (hc : fmt.length < 64 → c.Coherent libc)
    (hfits : SecFits libc sec fmt) (leaves : Buf64 → Buf64) (size : ℕ) :
    ∃ c', formatSecCached libc leaves c sec (some fmt) size =
      some (cut size (secText libc sec fmt), c') := by
  rw [formatSecCached, Option.getD_some]
  split_ifs with hmiss
  · exact ⟨_, by rw [text_refresh hfits]; rfl⟩
  · simp only [ne_eq, not_or, not_not] at hmiss
    obtain ⟨rfl, rfl, hblank⟩ := hmiss
    exact ⟨_, by rw [hc c.size hblank hfits]; rfl⟩

/-- A text that does not fit leaves what is left. -/
theorem formatted_refresh (h : ¬ SecFits libc sec fmt) :
    (c.refresh libc leaves sec fmt).formatted = leaves c.formatted := by
  rw [SecFits] at h
  rw [refresh]
  split_ifs at h ⊢
  · exact if_neg h
  · exact dif_neg h

/-- If everything before has fitted, a text that does not is taken from what was left. -/
theorem Fitted.formatSecCached_eq (hc : c.Fitted libc) (hfits : ¬ SecFits libc sec fmt)
    (size : ℕ) :
    Formatter.formatSecCached libc leaves c sec (some fmt) size =
      (leaves c.formatted).text.map fun t =>
        (cut size t, ⟨sec, cut 64 fmt, leaves c.formatted, length_cut_lt (by decide) fmt⟩) := by
  have hmiss : sec ≠ c.sec ∨ fmt ≠ c.timeFormat ∨ c.formatted.Blank := by
    by_contra hhit
    simp only [ne_eq, not_or, not_not] at hhit
    obtain ⟨rfl, rfl, hblank⟩ := hhit
    exact hfits (hc hblank)
  have hleft : (c.refresh libc leaves sec fmt).formatted = leaves c.formatted :=
    formatted_refresh hfits
  simp only [Formatter.formatSecCached, Option.getD_some, if_pos hmiss, ← hleft]
  rfl

end TimeCache

end Formatter
end Clogx
