import CommonCore.RotatingSinks

/-!
# Expired logs

Files are removed if they were modified before the last aligned time, which is
less than an interval ago.
-/

namespace CommonCore

namespace Dt

theorem lt_last_aligned_tp (dur ref : Int) {count : Int} (hdur : 0 < dur) (href : 0 < ref) (hle : ref ≤ dur * 2 ^ 32) (hcount : 1 ≤ count)
    (tp : Int) : tp - dur * count < lastAlignedTp dur ref tp (UInt32.ofInt count) := by
  have hrel : 0 ≤ tp - floor ref tp := sub_nonneg.mpr ((floor_alignment href).le tp)
  have hwrap : ((UInt32.ofInt count).toNat : Int) = count % 2 ^ 32 := by
    simp only [UInt32.ofInt, UInt32.toNat_ofNat']
    omega
  unfold lastAlignedTp
  by_cases hc : UInt32.ofInt count = 0
  · -- The count is a multiple of what 32 bits hold.
    simp only [hc, ne_eq, not_true_eq_false, if_false]
    have hlt := Int.emod_lt_of_pos tp href
    have hbig : 2 ^ 32 ≤ count := by
      rw [hc] at hwrap
      simp only [UInt32.toNat_zero, Nat.cast_zero] at hwrap
      omega
    have hmul : dur * 2 ^ 32 ≤ dur * count := Int.mul_le_mul_of_nonneg_left hbig hdur.le
    unfold floor
    omega
  · have hpos : 0 < (UInt32.ofInt count).toNat := Nat.pos_of_ne_zero fun h => hc (UInt32.toNat_inj.mp h)
    have hle' : ((UInt32.ofInt count).toNat : Int) ≤ count := by omega
    have hstep : 0 < dur * (UInt32.ofInt count).toNat := by positivity
    have hlt := Int.emod_lt_of_pos (tp - floor ref tp) hstep
    have hmul := Int.mul_le_mul_of_nonneg_left hle' hdur.le
    simp only [ne_eq, hc, not_false_eq_true, if_true, Int.tmod_eq_emod_of_nonneg hrel]
    omega

theorem floor_duration_le {unit count : Int} (hunit : 0 < unit) (hcount : 1 ≤ count) :
    floor second (duration unit count) ≤ unit * count := by
  have hprod : 0 ≤ unit * count := by positivity
  have hfloor := (floor_alignment (by decide : 0 < second)).le (duration unit count)
  have hbmod : (unit * count).bmod (2 ^ 64) ≤ unit * count := by
    rw [Int.bmod_def]
    split_ifs <;> omega
  exact hfloor.trans hbmod

theorem lt_last_aligned_clock (lib : CLibrary) {unit count : Int} {isLocal : Bool} (hpos : 0 < floor second (duration unit count))
    (hunit : 0 < unit) (hcount : 1 ≤ count) (tp : Int) : tp - unit * count < lastAlignedClock lib tp (duration unit count) isLocal := by
  have hle := floor_duration_le hunit hcount
  unfold lastAlignedClock
  rw [last_aligned_ref_eq hpos]
  have hlt := Int.emod_lt_of_pos (tp - if isLocal then - lib.tzoffset (toTimeT tp) else 0) hpos
  omega

theorem IsClock.nonempty {interval : DateTimeInterval} (hclock : IsClock interval) (hcount : 1 ≤ interval.count.toInt) :
    interval.nonempty = true := by
  have hne : interval.count ≠ 0 := fun h => by simp [h] at hcount
  unfold IsClock at hclock
  unfold DateTimeInterval.nonempty
  split at hclock <;> simp [*] at *

end Dt

namespace Logging

/-- The time that lies an interval before another. A number of months is read off
a calendar. -/
def timeBefore (monthsBefore : Int → Int → Int) (tp : Int) (interval : DateTimeInterval) : WithBot Int :=
  let count := interval.count.toInt
  match interval.unit with
  | .nanosecond => ((tp - count : Int) : WithBot Int)
  | .microsecond => ((tp - 10 ^ 3 * count : Int) : WithBot Int)
  | .millisecond => ((tp - 10 ^ 6 * count : Int) : WithBot Int)
  | .second => ((tp - Dt.second * count : Int) : WithBot Int)
  | .minute => ((tp - Dt.minute * count : Int) : WithBot Int)
  | .hour => ((tp - Dt.hour * count : Int) : WithBot Int)
  | .day => ((tp - 24 * Dt.hour * count : Int) : WithBot Int)
  | .week => ((tp - 7 * (24 * Dt.hour) * count : Int) : WithBot Int)
  | .month => (monthsBefore tp count : WithBot Int)
  | .year => (monthsBefore tp (12 * count) : WithBot Int)
  | .eternity => ⊥
  | .zeroTime => (tp : WithBot Int)

/-- Less than an interval passes after it. -/
theorem timeBefore_lt_last_aligned (monthsBefore : Int → Int → Int) (lib : CLibrary) {interval : DateTimeInterval} {isLocal : Bool}
    (hclock : Dt.IsClock interval) (hcount : 1 ≤ interval.count.toInt) (tp : Int) :
    timeBefore monthsBefore tp interval < (Dt.lastAligned lib tp interval isLocal : WithBot Int) := by
  unfold Dt.IsClock at hclock
  unfold Dt.lastAligned timeBefore
  split at hclock <;> simp only [*, WithBot.coe_lt_coe]
  case h_5 => exact Dt.lt_last_aligned_clock lib hclock (by decide) hcount tp
  case h_6 => exact Dt.lt_last_aligned_clock lib hclock (by decide) hcount tp
  case h_7 => exact hclock.elim
  case h_1 => simpa using Dt.lt_last_aligned_tp 1 Dt.second (by decide) (by decide) (by decide) hcount tp
  case h_2 => exact Dt.lt_last_aligned_tp (10 ^ 3) Dt.second (by decide) (by decide) (by decide) hcount tp
  case h_3 => exact Dt.lt_last_aligned_tp (10 ^ 6) Dt.second (by decide) (by decide) (by decide) hcount tp
  case h_4 => exact Dt.lt_last_aligned_tp Dt.second Dt.minute (by decide) (by decide) (by decide) hcount tp

namespace RotatingPath

variable {α : Type} (c : RotatingPath α)

/-- The files that are looked at. -/
def candidates (current : Bytes) (files : Files α) : List Bytes :=
  c.locate [plainPattern current, outfile (plainPattern current)] files

/-- Only files that are older than the interval are removed, and none without one. -/
structure KeepsYoung (monthsBefore : Int → Int → Int) (modifyTime : Bytes → Int) (tp : Int) (current : Bytes) (files : Files α) :
    Prop where
  older : ∀ path ∈ files, path ∉ c.checkExpiration modifyTime tp current files →
    (modifyTime path : WithBot Int) < timeBefore monthsBefore tp c.expirationInterval
  none : c.expirationInterval.nonempty = false → c.checkExpiration modifyTime tp current files = files

theorem mem_expire {expired : Bytes → Prop} [DecidablePred expired] (q : Bytes) (l : List Bytes) (files : Files α) :
    q ∈ l.foldl (fun files path => if expired path then files.erase path else files) files ↔ q ∈ files ∧ ¬ (q ∈ l ∧ expired q) := by
  induction l generalizing files with
  | nil => simp
  | cons path l ih =>
    rw [List.foldl_cons, ih]
    by_cases hq : q = path
    · subst hq
      by_cases hexp : expired q
      · simp [AList.mem_erase, hexp]
      · simp [hexp]
    · by_cases hexp : expired path
      · simp [if_pos hexp, AList.mem_erase, hq]
      · simp [if_neg hexp, hq]

/-- What is left is not a candidate, or was modified since. -/
theorem mem_check_expiration (modifyTime : Bytes → Int) (tp : Int) (current path : Bytes) (files : Files α)
    (hnonempty : c.expirationInterval.nonempty = true) :
    path ∈ c.checkExpiration modifyTime tp current files ↔
      path ∈ files ∧ ¬ (path ∈ c.candidates current files ∧ modifyTime path < c.lastAligned tp c.expirationInterval) := by
  unfold checkExpiration
  rw [if_pos hnonempty]
  exact mem_expire _ _ _

/-- A file that is not older than the interval. -/
theorem not_keepsYoung {monthsBefore : Int → Int → Int} {modifyTime : Bytes → Int} {tp : Int} {current path : Bytes} {files : Files α}
    (hnonempty : c.expirationInterval.nonempty = true) (hpath : path ∈ c.candidates current files)
    (hyoung : timeBefore monthsBefore tp c.expirationInterval ≤ modifyTime path)
    (hlt : modifyTime path < c.lastAligned tp c.expirationInterval) : ¬ c.KeepsYoung monthsBefore modifyTime tp current files := by
  intro h
  have hfile : path ∈ files := (List.mem_filter.mp hpath).1
  apply not_lt.mpr hyoung
  apply h.older path hfile
  rw [c.mem_check_expiration _ _ _ _ _ hnonempty]
  exact fun hleft => hleft.2 ⟨hpath, hlt⟩

/-- Any log may be removed too early if the interval is one of the clock. -/
theorem exists_not_keepsYoung (monthsBefore : Int → Int → Int) (tp : Int) {current path : Bytes} {files : Files α}
    (hclock : Dt.IsClock c.expirationInterval) (hcount : 1 ≤ c.expirationInterval.count.toInt)
    (hpath : path ∈ c.candidates current files) : ∃ modifyTime, ¬ c.KeepsYoung monthsBefore modifyTime tp current files := by
  have hlt : timeBefore monthsBefore tp c.expirationInterval < (c.lastAligned tp c.expirationInterval : WithBot Int) :=
    timeBefore_lt_last_aligned monthsBefore c.platform.lib hclock hcount tp
  refine ⟨fun _ => c.lastAligned tp c.expirationInterval - 1, ?_⟩
  apply c.not_keepsYoung (hclock.nonempty hcount) hpath ?_ (Int.sub_one_lt_iff.mpr le_rfl)
  cases hbefore : timeBefore monthsBefore tp c.expirationInterval with
  | bot => exact bot_le
  | coe before =>
    rw [hbefore, WithBot.coe_lt_coe] at hlt
    exact WithBot.coe_le_coe.mpr (Int.le_sub_one_of_lt hlt)

/-- A file is removed too early if it was modified between the two times. -/
theorem keepsYoung_iff (monthsBefore : Int → Int → Int) (modifyTime : Bytes → Int) (tp : Int) (current : Bytes) (files : Files α) :
    c.KeepsYoung monthsBefore modifyTime tp current files ↔
      (c.expirationInterval.nonempty = true →
        ¬ ∃ path ∈ c.candidates current files, timeBefore monthsBefore tp c.expirationInterval ≤ modifyTime path ∧
          modifyTime path < c.lastAligned tp c.expirationInterval) := by
  constructor
  · intro h hnonempty hwindow
    obtain ⟨path, hpath, hyoung, hlt⟩ := hwindow
    exact c.not_keepsYoung hnonempty hpath hyoung hlt h
  · intro h
    constructor
    · intro path hfile hgone
      by_cases hnonempty : c.expirationInterval.nonempty = true
      · rw [c.mem_check_expiration _ _ _ _ _ hnonempty, not_and, not_not] at hgone
        obtain ⟨hpath, hlt⟩ := hgone hfile
        by_contra hyoung
        exact h hnonempty ⟨path, hpath, not_lt.mp hyoung, hlt⟩
      · simp only [checkExpiration, if_neg hnonempty] at hgone
        exact absurd hfile hgone
    · intro hempty
      simp [checkExpiration, hempty]

/-- Logs that expire after an hour. -/
def hourlyExpiration : RotatingPath Int := { hourlyLog with expirationInterval := { unit := .hour, count := 1 } }

/-- A log of three quarters of an hour is removed once the next hour began. -/
theorem hourlyExpiration_not_keepsYoung :
    ¬ hourlyExpiration.KeepsYoung (fun tp _ => tp) (fun _ => clock 4 45) (clock 5 30) (ascii "/log/0500.log")
      ((∅ : Files Int).insert (ascii "/log/0400.log") []) := by
  have hpath : ascii "/log/0400.log" ∈
      hourlyExpiration.candidates (ascii "/log/0500.log") ((∅ : Files Int).insert (ascii "/log/0400.log") []) := by decide
  apply hourlyExpiration.not_keepsYoung rfl hpath
  · exact WithBot.coe_le_coe.mpr (by decide)
  · decide

end RotatingPath

end Logging

end CommonCore
