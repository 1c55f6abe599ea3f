/-
# `Convd.Line` — how a file is cut into lines

What `ucs_file_read_next` is for, without buffer or file: of the text ahead it takes
a line, and the next call goes on behind it.  A text without units is cut where
the top bit of its bytes changes; a text in units is cut at the last whole unit
that fits, and each unit is rewritten for the host.

    text ahead, in a line buffer of L bytes     next line
    nothing, or L = 0                           none: the file is finished
    text whose first run fills the buffer       none: insufficient
    other text                                  its first run
    units                                       the whole units among the first L bytes

The last may be none, of length 0.  `Lines` is a whole file cut that way, with what is
left at the end.
-/
import Convd.Bom
import Convd.ByteOrder
import Convd.Lib.Runs
import Mathlib.Data.List.Infix

namespace Convd

/-! ## One line -/

/-- The bit text is cut by. -/
def topBit (b : UInt8) : Nat := boCheckBit b.toNat 7

/-- The encodings without units of more than one byte. -/
def isText : UcsBom → Bool
  | .utf8Bom | .noneBom | .utf8BomAsk => true
  | .ucs2beBom | .ucs2leBom | .ucs4beBom | .ucs4leBom => false

/-- What is done to each unit of a line. -/
def lineConvert (host : Endian) : UcsBom → List UInt8 → List UInt8
  | .ucs2beBom | .ucs4beBom => boBytesBetoh host
  | _ => boBytesLetoh host

/-- The first `k` units of width `w`, each converted. -/
def convertUnits (convert : List UInt8 → List UInt8) (w : Nat) : Nat → List UInt8 → List UInt8
  | 0, _ => []
  | k + 1, bs => convert (bs.take w) ++ convertUnits convert w k (bs.drop w)

/-- The line ahead. -/
inductive Line where
  | finished
  | insuff
  | line (bytes : List UInt8)

/-- The first line of the text ahead, in a buffer of `L` bytes.  The number of bytes
read is an `int`. -/
def nextLine (host : Endian) (bom : UcsBom) (L : Nat) (ahead : List UInt8) : Line :=
  let got := ahead.take L
  let rdlen := (toInt got.length).toNat
  match got with
  | [] => .finished
  | b :: bs =>
      if isText bom then
        let n := (List.runTail topBit b (bs.take (rdlen - 1))).length + 1
        if n = L then .insuff else .line (got.take n)
      else
        .line (convertUnits (lineConvert host bom) (unitWidth bom) (rdlen / unitWidth bom) got)

/-- The text ahead, cut into lines until there is no next one; the last argument is
what is left of it then. -/
inductive Lines (host : Endian) (bom : UcsBom) (L : Nat) :
    List UInt8 → List (List UInt8) → List UInt8 → Prop where
  | ended {ahead : List UInt8} :
      nextLine host bom L ahead = .finished ∨ nextLine host bom L ahead = .line [] →
      Lines host bom L ahead [] ahead
  | line {ahead bytes left : List UInt8} {lines : List (List UInt8)} :
      nextLine host bom L ahead = .line bytes → bytes ≠ [] →
      Lines host bom L (ahead.drop bytes.length) lines left →
      Lines host bom L ahead (bytes :: lines) left

/-! ## Units -/

section Units

variable {convert : List UInt8 → List UInt8} {w : Nat}

theorem length_lineConvert (host : Endian) (bom : UcsBom) (b : List UInt8) :
    (lineConvert host bom b).length = b.length := by
  cases bom <;> simp [lineConvert, boBytesBetoh_eq, boBytesLetoh_eq]

theorem length_convertUnits (hc : ∀ b, (convert b).length = b.length) :
    ∀ (k : Nat) (bs : List UInt8), k * w ≤ bs.length →
      (convertUnits convert w k bs).length = k * w
  | 0, _, _ => by rw [convertUnits, List.length_nil, Nat.zero_mul]
  | k + 1, bs, h => by
      rw [Nat.succ_mul] at h ⊢
      have hdrop : k * w ≤ (bs.drop w).length := by
        rw [List.length_drop]
        omega
      rw [convertUnits, List.length_append, hc, List.length_take,
        length_convertUnits hc k _ hdrop]
      omega

/-- Units are converted one by one, so a run of them may be cut anywhere between two. -/
theorem convertUnits_add : ∀ (j k : Nat) (bs : List UInt8),
    convertUnits convert w (j + k) bs
      = convertUnits convert w j bs ++ convertUnits convert w k (bs.drop (j * w))
  | 0, k, bs => by rw [Nat.zero_add, Nat.zero_mul, List.drop_zero, convertUnits, List.nil_append]
  | j + 1, k, bs => by
      have hsum : j + 1 + k = j + k + 1 := by omega
      have hmul : w + j * w = (j + 1) * w := by rw [Nat.succ_mul, Nat.add_comm]
      rw [hsum, convertUnits, convertUnits_add j k, List.drop_drop, hmul, convertUnits,
        List.append_assoc]

/-- Only the units themselves matter. -/
theorem convertUnits_take : ∀ (k n : Nat) (bs : List UInt8), k * w ≤ n →
    convertUnits convert w k (bs.take n) = convertUnits convert w k bs
  | 0, _, _, _ => rfl
  | k + 1, n, bs, h => by
      rw [Nat.succ_mul] at h
      have hmin : min w n = w := Nat.min_eq_left (by omega)
      rw [convertUnits, List.take_take, hmin, List.drop_take,
        convertUnits_take k (n - w) _ (by omega), convertUnits]

/-- Units that are left alone. -/
theorem convertUnits_self (hc : ∀ u, convert u = u) :
    ∀ (k : Nat) (bs : List UInt8), convertUnits convert w k bs = bs.take (k * w)
  | 0, bs => by rw [convertUnits, Nat.zero_mul, List.take_zero]
  | k + 1, bs => by
      rw [convertUnits, hc, convertUnits_self hc, Nat.succ_mul, Nat.add_comm, List.take_add]

end Units

/-- A line is no longer than what was read for it. -/
theorem length_le_take_of_nextLine {host : Endian} {bom : UcsBom} {L : Nat}
    {ahead bytes : List UInt8} (h : nextLine host bom L ahead = .line bytes) :
    bytes.length ≤ (ahead.take L).length := by
  have hle := toInt_le (ahead.take L).length
  rcases htake : ahead.take L with _ | ⟨b, bs⟩
  · simp only [nextLine, htake] at h
    cases h
  · rw [htake] at hle
    simp only [nextLine, htake] at h
    generalize (toInt (b :: bs).length) = rdlen at hle h
    split at h
    · split at h
      · cases h
      · cases h
        exact List.length_take_le' _ _
    · cases h
      have hdiv := Nat.div_mul_le_self rdlen.toNat (unitWidth bom)
      rw [length_convertUnits (length_lineConvert host bom) _ _ (by omega)]
      omega

/-- A line is no longer than what is ahead. -/
theorem length_le_of_nextLine {host : Endian} {bom : UcsBom} {L : Nat} {ahead bytes : List UInt8}
    (h : nextLine host bom L ahead = .line bytes) : bytes.length ≤ ahead.length :=
  Nat.le_trans (length_le_take_of_nextLine h) (List.length_take_le' _ _)

theorem take_ne_nil_of_insuff {host : Endian} {bom : UcsBom} {L : Nat} {ahead : List UInt8}
    (h : nextLine host bom L ahead = .insuff) : ahead.take L ≠ [] := by
  intro hnil
  simp only [nextLine, hnil] at h
  cases h

/-- No line is longer than the buffer. -/
theorem Lines.length_le {host : Endian} {bom : UcsBom} {L : Nat} {ahead left : List UInt8}
    {lines : List (List UInt8)} (h : Lines host bom L ahead lines left) :
    ∀ line ∈ lines, line.length ≤ L := by
  induction h with
  | ended _ => exact fun _ h => nomatch h
  | line hline _ _ ih =>
      intro line hmem
      rcases List.mem_cons.mp hmem with rfl | hmem
      · exact Nat.le_trans (length_le_take_of_nextLine hline) (List.length_take_le _ _)
      · exact ih line hmem

/-! ## Text -/

section Text

variable {host : Endian} {bom : UcsBom} {L : Nat}

/-- The line of a text, by the length of what was read. -/
theorem nextLine_of_take (ht : isText bom = true) {ahead : List UInt8} {b : UInt8}
    {bs : List UInt8} (htake : ahead.take L = b :: bs) {rdlen : Nat}
    (hr : (toInt (ahead.take L).length).toNat = rdlen) :
    nextLine host bom L ahead =
      if (List.runTail topBit b (bs.take (rdlen - 1))).length + 1 = L then .insuff
      else .line ((b :: bs).take ((List.runTail topBit b (bs.take (rdlen - 1))).length + 1)) := by
  simp only [nextLine, hr]
  rw [htake]
  simp only [ht, if_true]

/-- The line of a text is its first run, as far as it was read. -/
theorem nextLine_text_eq (ht : isText bom = true) (h0 : 0 < L) (b : UInt8) (bs : List UInt8)
    {k : Nat} (hk : k = min ((toInt (min L (bs.length + 1))).toNat - 1) (L - 1)) :
    nextLine host bom L (b :: bs) =
      if ((List.runTail topBit b bs).take k).length + 1 = L then .insuff
      else .line (b :: (List.runTail topBit b bs).take k) := by
  obtain ⟨m, rfl⟩ : ∃ m, L = m + 1 := ⟨L - 1, by omega⟩
  have hread : (toInt ((b :: bs).take (m + 1)).length).toNat
      = (toInt (min (m + 1) (bs.length + 1))).toNat :=
    congrArg (fun n => (toInt n).toNat) (List.length_take ..)
  have hnext := @nextLine_of_take host bom (m + 1) ht (b :: bs) b (bs.take m) List.take_succ_cons
    _ hread
  rw [Nat.add_sub_cancel] at hk
  have hcut : (bs.take m).take ((List.runTail topBit b bs).take k).length
      = (List.runTail topBit b bs).take k := by
    have hle : min k (List.runTail topBit b bs).length ≤ m := by omega
    rw [List.length_take, List.take_take, Nat.min_eq_left hle, ← List.take_take,
      List.take_length_runTail]
  rw [hnext, List.take_take, ← hk, List.runTail_take, List.take_succ_cons, hcut]

theorem nextLine_text (ht : isText bom = true) (hL : L < 2 ^ 31) (h0 : 0 < L) (b : UInt8)
    (bs : List UInt8) :
    nextLine host bom L (b :: bs) =
      if (b :: List.runTail topBit b bs).length < L then .line (b :: List.runTail topBit b bs)
      else .insuff := by
  have hint : min L (bs.length + 1) < 2 ^ 31 := by omega
  have hrun := List.length_runTail_le topBit b bs
  rw [nextLine_text_eq ht h0 b bs rfl, toInt_of_lt hint, Int.toNat_natCast, List.length_take,
    List.length_cons]
  split
  · rw [if_neg (by omega)]
  · rw [if_pos (by omega), List.take_of_length_le (by omega)]

/-- A text whose runs are all shorter than the buffer is cut into its runs. -/
theorem lines_text (ht : isText bom = true) (hL : L < 2 ^ 31) : ∀ (ahead : List UInt8),
    (∀ r ∈ List.runs topBit ahead, r.length < L) →
    Lines host bom L ahead (List.runs topBit ahead) [] := by
  intro ahead
  generalize hn : ahead.length = n
  induction n using Nat.strongRecOn generalizing ahead with
  | ind n ih =>
      intro hruns
      cases ahead with
      | nil => exact .ended (.inl (by rw [nextLine, List.take_nil]))
      | cons b bs =>
          rw [List.runs_cons] at hruns ⊢
          have hfirst := hruns _ List.mem_cons_self
          have h0 : 0 < L := Nat.lt_of_le_of_lt (Nat.zero_le _) hfirst
          refine .line ?_ (List.cons_ne_nil _ _) ?_
          · rw [nextLine_text ht hL h0, if_pos hfirst]
          · refine ih _ ?_ _ rfl fun r hr => hruns r (List.mem_cons_of_mem _ hr)
            rw [← hn, List.length_drop]
            exact Nat.sub_lt (Nat.succ_pos _) (Nat.succ_pos _)

/-- Whatever the size of the buffer, a line of a text is a part of its first run, unless
that run fills the buffer. -/
theorem nextLine_text_cut (ht : isText bom = true) {b : UInt8} {bs : List UInt8}
    (hfirst : (b :: List.runTail topBit b bs).length < L) :
    ∃ n, nextLine host bom L (b :: bs) = .line (b :: bs.take n) := by
  have hnext := @nextLine_text_eq host bom L ht (by omega) b bs _ rfl
  generalize min ((toInt (min L (bs.length + 1))).toNat - 1) (L - 1) = k at hnext
  have hlen := List.length_take_le' k (List.runTail topBit b bs)
  rw [List.length_cons] at hfirst
  rw [if_neg (by omega), ← List.take_length_runTail, List.take_take] at hnext
  exact ⟨_, hnext⟩

/-- So a text whose runs are all shorter than the buffer is cut up to its end, somehow. -/
theorem lines_text_flatten (ht : isText bom = true) : ∀ (ahead : List UInt8),
    (∀ r ∈ List.runs topBit ahead, r.length < L) →
    ∃ lines, Lines host bom L ahead lines [] ∧ lines.flatten = ahead := by
  intro ahead
  generalize hn : ahead.length = n
  induction n using Nat.strongRecOn generalizing ahead with
  | ind n ih =>
      intro hruns
      cases ahead with
      | nil => exact ⟨[], .ended (.inl (by rw [nextLine, List.take_nil])), rfl⟩
      | cons b bs =>
          have hfirst := hruns (b :: List.runTail topBit b bs) (by
            rw [List.runs_cons]
            exact List.mem_cons_self)
          obtain ⟨m, hline⟩ := @nextLine_text_cut host bom L ht b bs hfirst
          have hless : ((b :: bs).drop (b :: bs.take m).length).length < n := by
            rw [← hn, List.length_drop]
            exact Nat.sub_lt (Nat.succ_pos _) (Nat.succ_pos _)
          obtain ⟨lines, hlines, hflat⟩ := ih _ hless _ rfl
            (List.length_lt_of_mem_runs_drop topBit _ hruns)
          refine ⟨_, .line hline (List.cons_ne_nil _ _) hlines, ?_⟩
          have hcut : b :: bs.take m <+: b :: bs := List.take_prefix (m + 1) (b :: bs)
          rw [List.flatten_cons, hflat]
          exact (List.prefix_append_drop hcut).symm

end Text

/-! ## Units -/

section Units

variable {host : Endian} {bom : UcsBom} {L : Nat}

theorem nextLine_units (hu : isText bom = false) {ahead : List UInt8} (hne : ahead.take L ≠ []) :
    nextLine host bom L ahead = .line (convertUnits (lineConvert host bom) (unitWidth bom)
      ((toInt (ahead.take L).length).toNat / unitWidth bom) ahead) := by
  have hle : (toInt (ahead.take L).length).toNat ≤ L := by
    have := toInt_le (ahead.take L).length
    have := List.length_take_le L ahead
    omega
  have hcut : ∀ k, k * unitWidth bom ≤ L →
      convertUnits (lineConvert host bom) (unitWidth bom) k (ahead.take L)
        = convertUnits (lineConvert host bom) (unitWidth bom) k ahead :=
    fun k hk => convertUnits_take k L ahead hk
  rcases htake : ahead.take L with _ | ⟨b, bs⟩
  · exact absurd htake hne
  · rw [htake] at hle hcut
    simp only [nextLine, htake, hu, Bool.false_eq_true, if_false]
    exact congrArg Line.line (hcut _ (Nat.le_trans (Nat.div_mul_le_self _ _) hle))

/-- Nothing of a text in units is ever found insufficient. -/
theorem nextLine_units_ne_insuff (hu : isText bom = false) (ahead : List UInt8) :
    nextLine host bom L ahead ≠ .insuff := by
  by_cases hne : ahead.take L = []
  · simp [nextLine, hne]
  · rw [nextLine_units hu hne]
    exact fun h => nomatch h

/-- When a text in units is cut up to its end: it is a number of whole units, a unit
fits the buffer, and what is read at a time is counted by an `int`. -/
def WholeUnits (bom : UcsBom) (L : Nat) (ahead : List UInt8) : Prop :=
  ahead = [] ∨ (unitWidth bom ∣ ahead.length ∧ unitWidth bom ≤ L ∧ min L ahead.length < 2 ^ 31)

theorem wholeUnits_of_take_eq_nil {ahead : List UInt8} (h : ahead.take L = []) :
    0 = ahead.length ↔ WholeUnits bom L ahead := by
  have hw := unitWidth_pos bom
  constructor
  · intro hnil
    exact .inl (List.length_eq_zero_iff.mp hnil.symm)
  · rintro (rfl | ⟨-, hle, -⟩)
    · rfl
    · rcases List.take_eq_nil_iff.mp h with hL | rfl
      · omega
      · rfl

/-- A reader that takes no unit is stuck, unless there is nothing ahead. -/
theorem wholeUnits_of_no_unit {ahead : List UInt8}
    (h : (toInt (ahead.take L).length).toNat / unitWidth bom = 0) :
    0 = ahead.length ↔ WholeUnits bom L ahead := by
  have hw := unitWidth_pos bom
  constructor
  · intro hnil
    exact .inl (List.length_eq_zero_iff.mp hnil.symm)
  · rintro (rfl | ⟨hdvd, hle, hint⟩)
    · rfl
    · by_contra hne
      have hlen : unitWidth bom ≤ ahead.length := Nat.le_of_dvd (by omega) hdvd
      have hpos := Nat.div_pos (Nat.le_min.mpr ⟨hle, hlen⟩) hw
      rw [List.length_take, toInt_of_lt hint, Int.toNat_natCast] at h
      exact absurd h (Nat.ne_of_gt hpos)

/-- A reader that takes units is stuck where it would be had it started behind them. -/
theorem wholeUnits_drop {ahead : List UInt8} {k : Nat} (hL : L < 2 ^ 32) (hk : 0 < k)
    (h : k = (toInt (ahead.take L).length).toNat / unitWidth bom)
    (hle : k * unitWidth bom ≤ (ahead.take L).length) :
    WholeUnits bom L (ahead.drop (k * unitWidth bom)) ↔ WholeUnits bom L ahead := by
  have hw := unitWidth_pos bom
  rw [List.length_take] at h hle
  have hint : min L ahead.length < 2 ^ 31 := by
    by_contra hbig
    have hneg : toInt (min L ahead.length) < 0 := toInt_neg (by omega) (by omega)
    rw [Int.toNat_of_nonpos (Int.le_of_lt hneg), Nat.zero_div] at h
    omega
  have hunit : unitWidth bom ≤ k * unitWidth bom := Nat.le_mul_of_pos_left _ hk
  have hdvd : unitWidth bom ∣ (ahead.drop (k * unitWidth bom)).length ↔
      unitWidth bom ∣ ahead.length := by
    rw [List.length_drop]
    exact Nat.dvd_sub_iff_left (by omega) (Nat.dvd_mul_left _ _)
  constructor
  · rintro (hnil | ⟨hd, -, -⟩)
    · rw [hnil, List.length_nil] at hdvd
      exact .inr ⟨hdvd.mp (Nat.dvd_zero _), by omega, hint⟩
    · exact .inr ⟨hdvd.mp hd, by omega, hint⟩
  · rintro (rfl | ⟨hd, hwL, -⟩)
    · exact .inl List.drop_nil
    · refine .inr ⟨hdvd.mpr hd, hwL, ?_⟩
      rw [List.length_drop]
      omega

/-- A text in units is cut into whole units, all of them or as many as there are
before the reader gets stuck. -/
theorem lines_units (hu : isText bom = false) (hL : L < 2 ^ 32) : ∀ (ahead : List UInt8),
    ∃ k lines, k * unitWidth bom ≤ ahead.length ∧
      Lines host bom L ahead lines (ahead.drop (k * unitWidth bom)) ∧
      lines.flatten = convertUnits (lineConvert host bom) (unitWidth bom) k ahead ∧
      (k * unitWidth bom = ahead.length ↔ WholeUnits bom L ahead) := by
  have hw := unitWidth_pos bom
  intro ahead
  generalize hn : ahead.length = n
  induction n using Nat.strongRecOn generalizing ahead with
  | ind n ih =>
      by_cases hnil : ahead.take L = []
      · refine ⟨0, [], by rw [Nat.zero_mul]; exact Nat.zero_le n, ?_, rfl, ?_⟩
        · rw [Nat.zero_mul, List.drop_zero]
          exact .ended (.inl (by rw [nextLine, hnil]))
        · rw [Nat.zero_mul, ← hn]
          exact wholeUnits_of_take_eq_nil hnil
      · have hline := @nextLine_units host bom L hu ahead hnil
        generalize hk : (toInt (ahead.take L).length).toNat / unitWidth bom = k at hline
        rcases Nat.eq_zero_or_pos k with rfl | hpos
        · refine ⟨0, [], by rw [Nat.zero_mul]; exact Nat.zero_le n, ?_, rfl, ?_⟩
          · rw [Nat.zero_mul, List.drop_zero]
            exact .ended (.inr hline)
          · rw [Nat.zero_mul, ← hn]
            exact wholeUnits_of_no_unit hk
        · have hread : k * unitWidth bom ≤ (ahead.take L).length := by
            have := toInt_le (ahead.take L).length
            have := Nat.div_mul_le_self (toInt (ahead.take L).length).toNat (unitWidth bom)
            rw [hk] at this
            omega
          have hle : k * unitWidth bom ≤ ahead.length :=
            Nat.le_trans hread (List.length_take_le' _ _)
          have hbytes := length_convertUnits (length_lineConvert host bom) k ahead hle
          have hstep : 0 < k * unitWidth bom := Nat.mul_pos hpos hw
          obtain ⟨j, lines, hj, hlines, hflat, hwhole⟩ := ih _
            (by rw [← hn, List.length_drop]; omega) (ahead.drop (k * unitWidth bom)) rfl
          rw [List.length_drop] at hj hwhole
          have hne : convertUnits (lineConvert host bom) (unitWidth bom) k ahead ≠ [] := by
            intro hnone
            rw [hnone, List.length_nil] at hbytes
            omega
          refine ⟨k + j, convertUnits (lineConvert host bom) (unitWidth bom) k ahead :: lines,
            ?_, .line hline hne ?_, ?_, ?_⟩
          · rw [Nat.add_mul, ← hn]
            omega
          · rw [hbytes, Nat.add_mul, ← List.drop_drop]
            exact hlines
          · rw [List.flatten_cons, hflat, convertUnits_add]
          · rw [← wholeUnits_drop hL hpos hk.symm hread, ← hwhole, Nat.add_mul, ← hn]
            omega

end Units

end Convd
