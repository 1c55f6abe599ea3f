/-
# `Convd.LineCuts` — where the lines of a file end

A closed form of the cuts `Lines` makes, for any file and any line buffer, the largest
included: what is read at a time is counted by an `int`, which 2 ^ 31 bytes do not fit.

    text     behind the last byte of a run, and behind every byte where 2 ^ 31 bytes or
             more are read for one line
    units    every L - L mod w bytes, and behind the last unit; nowhere, where 2 ^ 31
             bytes or more are read for the first line

Each line is the text between two cuts, with its units rewritten (`Lines.placed_eq`).  No
line is found insufficient when the runs of a text are shorter than the buffer
(`exists_lines_iff`).
-/
import Convd.Line
import Convd.Lib.Pieces

namespace Convd

/-! ## The cuts -/

/-- A text without units is cut behind its first `e` bytes. -/
def TextCut (L : Nat) (text : List UInt8) (e : Nat) : Prop :=
  0 < e ∧ e ≤ text.length ∧
    ((text[e - 1]?).map topBit ≠ (text[e]?).map topBit ∨ 2 ^ 31 ≤ min L (text.length - (e - 1)))

/-- A text of `n` bytes in units of width `w` is cut behind its first `e` bytes. -/
def UnitsCut (w L n e : Nat) : Prop :=
  0 < e ∧ e ≤ n / w * w ∧ min L n < 2 ^ 31 ∧ (L / w * w ∣ e ∨ e = n / w * w)

/-- A text is cut behind its first `e` bytes. -/
def CutAt (bom : UcsBom) (L : Nat) (text : List UInt8) (e : Nat) : Prop :=
  if isText bom then TextCut L text e else UnitsCut (unitWidth bom) L text.length e

section Text

variable {host : Endian} {bom : UcsBom} {L e k : Nat} {text bytes : List UInt8}

theorem textCut_add (hk : k ≤ text.length) (he : 0 < e) :
    TextCut L text (k + e) ↔ TextCut L (text.drop k) e := by
  have hprev : k + e - 1 = k + (e - 1) := by omega
  have hlen : text.length - (k + (e - 1)) = text.length - k - (e - 1) := by omega
  rw [TextCut, TextCut, List.getElem?_drop, List.getElem?_drop, List.length_drop, hprev, hlen]
  constructor
  · rintro ⟨-, hle, hcut⟩
    exact ⟨he, by omega, hcut⟩
  · rintro ⟨-, hle, hcut⟩
    exact ⟨by omega, by omega, hcut⟩

/-- What a line of a text is, whatever the size of the buffer. -/
theorem eq_of_nextLine_text (ht : isText bom = true) (h1 : 1 < L) (hL : L < 2 ^ 32) {b : UInt8}
    {bs : List UInt8} (h : nextLine host bom L (b :: bs) = .line bytes) :
    bytes = if min L (b :: bs).length < 2 ^ 31 then b :: List.runTail topBit b bs else [b] := by
  have hint : min L (bs.length + 1) < 2 ^ 32 := by omega
  have hrun := List.length_runTail_le topBit b bs
  have hnext := @nextLine_text_eq host bom L ht (Nat.lt_of_succ_lt h1) b bs _ rfl
  rw [toNat_toInt hint, List.length_take] at hnext
  generalize hk : min ((if min L (bs.length + 1) < 2 ^ 31 then min L (bs.length + 1) else 0) - 1)
    (L - 1) = k at hnext
  rw [hnext] at h
  rw [List.length_cons]
  split at h
  · cases h
  · rename_i hne
    rw [← Line.line.inj h]
    split at hk
    · rename_i hsmall
      rw [if_pos hsmall, List.take_of_length_le (by omega)]
    · rename_i hbig
      rw [if_neg hbig, ← hk, Nat.zero_sub, Nat.zero_min, List.take_zero]

/-- A line of a text is the beginning of it. -/
theorem nextLine_text_eq_take (ht : isText bom = true)
    (h : nextLine host bom L text = .line bytes) : bytes = text.take bytes.length := by
  rcases htake : text.take L with _ | ⟨b, bs⟩
  · simp only [nextLine, htake] at h
    cases h
  · rw [nextLine_of_take ht htake rfl, ← htake] at h
    split at h
    · cases h
    · rw [← Line.line.inj h, List.take_take]
      exact List.prefix_iff_eq_take.mp <| List.take_prefix _ _

/-- Up to the end of a line a text is cut there and nowhere else. -/
theorem textCut_line_iff (ht : isText bom = true) (h1 : 1 < L) (hL : L < 2 ^ 32)
    (h : nextLine host bom L text = .line bytes) (he : e ≤ bytes.length) :
    TextCut L text e ↔ e = bytes.length := by
  rcases text with _ | ⟨b, bs⟩
  · rw [nextLine, List.take_nil] at h
    cases h
  · have heq := eq_of_nextLine_text ht h1 hL h
    split at heq
    · subst heq
      constructor
      · -- inside the run the bytes agree, and less is read than an `int` can count
        rintro ⟨h0, -, hcut⟩
        by_contra hne
        rcases hcut with hcut | hbig
        · rw [List.key_of_lt_run topBit (by omega), List.key_of_lt_run topBit (by omega)] at hcut
          exact hcut rfl
        · omega
      · rintro rfl
        have hlast : (b :: List.runTail topBit b bs).length - 1 <
            (b :: List.runTail topBit b bs).length := Nat.sub_lt (Nat.succ_pos _) Nat.one_pos
        refine ⟨Nat.succ_pos _, Nat.succ_le_succ (List.length_runTail_le topBit b bs), .inl ?_⟩
        rw [List.key_of_lt_run topBit hlast]
        exact (List.key_behind_run topBit b bs).symm
    · subst heq
      constructor
      · rintro ⟨h0, -⟩
        exact Nat.le_antisymm he h0
      · rintro rfl
        refine ⟨Nat.one_pos, Nat.succ_le_succ (Nat.zero_le _), .inr ?_⟩
        rw [List.length_singleton, Nat.sub_self, Nat.sub_zero]
        omega

end Text

section Units

variable {host : Endian} {bom : UcsBom} {L e n w : Nat} {text bytes : List UInt8}

/-- The whole units among the first `L` bytes. -/
theorem min_div_mul (L n w : Nat) : min L n / w * w = min (L / w * w) (n / w * w) := by
  rcases Nat.le_total L n with hle | hle
  · have hunits : L / w * w ≤ n / w * w := Nat.mul_le_mul_right w (Nat.div_le_div_right hle)
    rw [Nat.min_eq_left hle, Nat.min_eq_left hunits]
  · have hunits : n / w * w ≤ L / w * w := Nat.mul_le_mul_right w (Nat.div_le_div_right hle)
    rw [Nat.min_eq_right hle, Nat.min_eq_right hunits]

/-- What a line of a text in units is: as many units as fit. -/
theorem eq_of_nextLine_units (hu : isText bom = false) (hL : L < 2 ^ 32)
    (h : nextLine host bom L text = .line bytes) :
    bytes.length = (if min L text.length < 2 ^ 31 then
        min (L / unitWidth bom * unitWidth bom) (text.length / unitWidth bom * unitWidth bom)
      else 0) ∧
    bytes = convertUnits (lineConvert host bom) (unitWidth bom) (bytes.length / unitWidth bom)
      text := by
  have hw := unitWidth_pos bom
  have hne : text.take L ≠ [] := by
    intro hnil
    rw [nextLine, hnil] at h
    cases h
  have hint : min L text.length < 2 ^ 32 := by omega
  have hread : (toInt (text.take L).length).toNat
      = if min L text.length < 2 ^ 31 then min L text.length else 0 := by
    rw [List.length_take]
    exact toNat_toInt hint
  have hline := @nextLine_units host bom L hu text hne
  rw [hread] at hline
  have heq := Line.line.inj (h.symm.trans hline)
  have hlen : bytes.length = (if min L text.length < 2 ^ 31 then min L text.length else 0)
      / unitWidth bom * unitWidth bom := by
    rw [heq]
    refine length_convertUnits (length_lineConvert host bom) _ _
      (Nat.le_trans (Nat.div_mul_le_self _ _) ?_)
    split <;> omega
  refine ⟨?_, ?_⟩
  · rw [hlen]
    split
    · exact min_div_mul L text.length (unitWidth bom)
    · rw [Nat.zero_div, Nat.zero_mul]
  · rw [hlen, Nat.mul_div_cancel _ hw]
    exact heq

/-- Up to the end of a line of units the text is cut there and nowhere else. -/
theorem unitsCut_line_iff (hint : min L n < 2 ^ 31) (h0 : 0 < min (L / w * w) (n / w * w))
    (he : e ≤ min (L / w * w) (n / w * w)) :
    UnitsCut w L n e ↔ e = min (L / w * w) (n / w * w) := by
  constructor
  · rintro ⟨hpos, hle, -, hdvd | rfl⟩
    · have := Nat.le_of_dvd hpos hdvd
      omega
    · omega
  · intro heq
    refine ⟨by omega, by omega, hint, ?_⟩
    rcases Nat.le_total (L / w * w) (n / w * w) with hle | hle
    · rw [Nat.min_eq_left hle] at heq
      exact .inl (heq ▸ Nat.dvd_refl _)
    · rw [Nat.min_eq_right hle] at heq
      exact .inr heq

/-- Behind a line of units the text is cut as if it began there. -/
theorem unitsCut_add (hw : 0 < w) (hint : min L n < 2 ^ 31) (he : 0 < e) :
    UnitsCut w L n (min (L / w * w) (n / w * w) + e) ↔
      UnitsCut w L (n - min (L / w * w) (n / w * w)) e := by
  rcases Nat.lt_or_ge (L / w * w) (n / w * w) with hlt | hge
  · have hrest : (n - L / w * w) / w * w = n / w * w - L / w * w := by
      rw [Nat.mul_comm (L / w) w, Nat.sub_mul_div, Nat.sub_mul, Nat.mul_comm w]
    rw [Nat.min_eq_left (Nat.le_of_lt hlt), UnitsCut, UnitsCut, hrest,
      Nat.dvd_add_right (Nat.dvd_refl _)]
    constructor
    · rintro ⟨-, hle, -, hcut⟩
      exact ⟨he, by omega, by omega, hcut.imp_right fun h => by omega⟩
    · rintro ⟨-, hle, -, hcut⟩
      exact ⟨by omega, by omega, hint, hcut.imp_right fun h => by omega⟩
  · have hrest : (n - n / w * w) / w = 0 := by
      have hdiv := Nat.div_add_mod n w
      have hmod := Nat.mod_lt n hw
      rw [Nat.mul_comm] at hdiv
      exact Nat.div_eq_of_lt (by omega)
    rw [Nat.min_eq_right hge]
    constructor
    · rintro ⟨-, hle, -⟩
      omega
    · rintro ⟨-, hle, -⟩
      rw [hrest, Nat.zero_mul] at hle
      omega

end Units

/-! ## The lines -/

section Lines

variable {host : Endian} {bom : UcsBom} {L e : Nat} {text bytes : List UInt8}

theorem CutAt.pos (h : CutAt bom L text e) : 0 < e := by
  rw [CutAt] at h
  split at h
  · exact h.1
  · exact h.1

theorem cutAt_line_iff (h4 : 4 ≤ L) (hL : L < 2 ^ 32) (h : nextLine host bom L text = .line bytes)
    (hne : bytes ≠ []) (he : e ≤ bytes.length) : CutAt bom L text e ↔ e = bytes.length := by
  rw [CutAt]
  split
  · rename_i ht
    exact textCut_line_iff ht (by omega) hL h he
  · rename_i hu
    obtain ⟨hlen, -⟩ := eq_of_nextLine_units (Bool.eq_false_iff.mpr hu) hL h
    have hpos := List.length_pos_iff.mpr hne
    split at hlen
    · rename_i hint
      rw [hlen] at hpos he ⊢
      exact unitsCut_line_iff hint hpos he
    · omega

theorem cutAt_add (hL : L < 2 ^ 32) (h : nextLine host bom L text = .line bytes)
    (hne : bytes ≠ []) (he : 0 < e) :
    CutAt bom L text (bytes.length + e) ↔ CutAt bom L (text.drop bytes.length) e := by
  rw [CutAt, CutAt]
  split
  · exact textCut_add (length_le_of_nextLine h) he
  · rename_i hu
    obtain ⟨hlen, -⟩ := eq_of_nextLine_units (Bool.eq_false_iff.mpr hu) hL h
    have hpos := List.length_pos_iff.mpr hne
    split at hlen
    · rename_i hint
      rw [List.length_drop, hlen]
      exact unitsCut_add (unitWidth_pos bom) hint he
    · omega

theorem nextLine_ne_finished (h : text.take L ≠ []) : nextLine host bom L text ≠ .finished := by
  obtain ⟨b, bs, htake⟩ := List.exists_cons_of_ne_nil h
  intro hfin
  simp only [nextLine, htake] at hfin
  split at hfin
  · split at hfin <;> cases hfin
  · cases hfin

/-- Where there is no next line there is no cut. -/
theorem not_cutAt_of_end (h4 : 4 ≤ L) (hL : L < 2 ^ 32)
    (h : nextLine host bom L text = .finished ∨ nextLine host bom L text = .line []) :
    ¬ CutAt bom L text e := by
  have hw := unitWidth_pos bom
  have hwL := unitWidth_le bom
  by_cases hnil : text.take L = []
  · have htext : text = [] := by
      rcases List.take_eq_nil_iff.mp hnil with hzero | htext
      · omega
      · exact htext
    subst htext
    rw [CutAt]
    split
    · rintro ⟨hpos, hle, -⟩
      exact absurd hle (Nat.not_le.mpr hpos)
    · rintro ⟨hpos, hle, -⟩
      rw [List.length_nil, Nat.zero_div, Nat.zero_mul] at hle
      exact absurd hle (Nat.not_le.mpr hpos)
  · have hline : nextLine host bom L text = .line [] :=
      h.resolve_left (nextLine_ne_finished hnil)
    rw [CutAt]
    split
    · rename_i ht
      have hcut := (textCut_line_iff ht (by omega) hL hline (Nat.le_refl _)).mpr rfl
      exact absurd hcut.1 (Nat.lt_irrefl 0)
    · rename_i hu
      obtain ⟨hlen, -⟩ := eq_of_nextLine_units (Bool.eq_false_iff.mpr hu) hL hline
      rintro ⟨hpos, hle, hint, -⟩
      have hunit : 0 < L / unitWidth bom * unitWidth bom :=
        Nat.mul_pos (Nat.div_pos (by omega) hw) hw
      rw [if_pos hint, List.length_nil] at hlen
      omega

/-- The lines of a file end where it is cut. -/
theorem Lines.endsAt_iff {lines : List (List UInt8)} {left : List UInt8} (h4 : 4 ≤ L)
    (hL : L < 2 ^ 32) (h : Lines host bom L text lines left) :
    ∀ e, lines.EndsAt e ↔ CutAt bom L text e := by
  induction h with
  | ended hend => exact fun e => iff_of_false List.not_endsAt_nil (not_cutAt_of_end h4 hL hend)
  | @line text bytes left lines hline hne _ ih =>
      intro e
      rw [List.endsAt_cons]
      constructor
      · rintro (rfl | ⟨e', hends, rfl⟩)
        · exact (cutAt_line_iff h4 hL hline hne (Nat.le_refl _)).mpr rfl
        · have hcut := (ih e').mp hends
          exact (cutAt_add hL hline hne hcut.pos).mpr hcut
      · intro hcut
        rcases Nat.lt_or_ge bytes.length e with hlt | hle
        · obtain ⟨e', rfl⟩ := Nat.exists_eq_add_of_le (Nat.le_of_lt hlt)
          have hpos : 0 < e' := by omega
          exact .inr ⟨e', (ih e').mpr ((cutAt_add hL hline hne hpos).mp hcut), rfl⟩
        · exact .inl ((cutAt_line_iff h4 hL hline hne hle).mp hcut)

/-- A text as it is handed over: its units rewritten, if it has any. -/
def forHost (host : Endian) (bom : UcsBom) (text : List UInt8) : List UInt8 :=
  convertUnits (lineConvert host bom) (unitWidth bom) (text.length / unitWidth bom) text

theorem forHost_text (ht : isText bom = true) : forHost host bom text = text := by
  have hself : ∀ u, lineConvert host bom u = u := by
    intro u
    cases bom <;> first | exact boBytesLetoh_eq host u | cases ht
  have hone : unitWidth bom = 1 := by cases bom <;> first | rfl | cases ht
  rw [forHost, convertUnits_self hself, hone, Nat.div_one, Nat.mul_one, List.take_length]

/-- A line is the beginning of the text ahead, as it is handed over. -/
theorem nextLine_eq_forHost (hL : L < 2 ^ 32) (h : nextLine host bom L text = .line bytes) :
    bytes = forHost host bom (text.take bytes.length) := by
  rcases hu : isText bom with _ | _
  · obtain ⟨-, heq⟩ := eq_of_nextLine_units hu hL h
    rw [forHost, List.length_take, Nat.min_eq_left (length_le_of_nextLine h),
      convertUnits_take _ _ _ (Nat.div_mul_le_self _ _)]
    exact heq
  · rw [forHost_text hu]
    exact nextLine_text_eq_take hu h

/-- Each line is the text at its place, as it is handed over. -/
theorem Lines.placed_eq {lines : List (List UInt8)} {left : List UInt8} (hL : L < 2 ^ 32)
    (h : Lines host bom L text lines left) : ∀ {s : Nat} {line : List UInt8},
    lines.Placed s line → line ≠ [] ∧ line.length ≤ L ∧ s + line.length ≤ text.length ∧
      line = forHost host bom ((text.drop s).take line.length) := by
  induction h with
  | ended _ => exact fun hplaced => absurd hplaced List.not_placed_nil
  | @line text bytes left lines hline hne _ ih =>
      intro s line hplaced
      have hlen := length_le_of_nextLine hline
      have hread := length_le_take_of_nextLine hline
      rcases List.placed_cons.mp hplaced with ⟨rfl, rfl⟩ | ⟨s', hrest, rfl⟩
      · rw [List.drop_zero, Nat.zero_add]
        exact ⟨hne, Nat.le_trans hread (List.length_take_le _ _), hlen,
          nextLine_eq_forHost hL hline⟩
      · obtain ⟨hne', hle, hend, heq⟩ := ih hrest
        rw [List.length_drop] at hend
        rw [List.drop_drop] at heq
        exact ⟨hne', hle, by omega, heq⟩

end Lines

/-! ## Whether a file is cut to its end -/

section Sufficient

variable {host : Endian} {bom : UcsBom} {L : Nat} {text bytes : List UInt8}

/-- As long as no line is insufficient, a text is cut until it is finished. -/
theorem exists_lines_of_ne_insuff : ∀ (text : List UInt8),
    (∀ k, nextLine host bom L (text.drop k) ≠ .insuff) →
    ∃ lines left, Lines host bom L text lines left := by
  intro text
  generalize hn : text.length = n
  induction n using Nat.strongRecOn generalizing text with
  | ind n ih =>
      intro h
      rcases hline : nextLine host bom L text with _ | _ | bytes
      · exact ⟨[], text, .ended (.inl hline)⟩
      · exact absurd hline (h 0)
      · rcases bytes with _ | ⟨b, bs⟩
        · exact ⟨[], text, .ended (.inr hline)⟩
        · have hle := length_le_of_nextLine hline
          have hless : (text.drop (b :: bs).length).length < n := by
            rw [← hn, List.length_drop]
            exact Nat.sub_lt (Nat.lt_of_lt_of_le (Nat.succ_pos _) hle) (Nat.succ_pos _)
          obtain ⟨lines, left, hlines⟩ := ih _ hless _ rfl fun k => by
            rw [List.drop_drop]
            exact h _
          exact ⟨_, left, .line hline (List.cons_ne_nil _ _) hlines⟩

/-- A line is insufficient only as long as an `int` can count it. -/
theorem lt_of_nextLine_insuff (h : nextLine host bom L text = .insuff) :
    isText bom = true ∧ L < 2 ^ 31 := by
  obtain ⟨b, bs, htake⟩ := List.exists_cons_of_ne_nil (take_ne_nil_of_insuff h)
  rcases hu : isText bom with _ | _
  · exact absurd h (nextLine_units_ne_insuff hu text)
  · refine ⟨rfl, ?_⟩
    have hnext := @nextLine_of_take host bom L hu text b bs htake _ rfl
    have hread : (toInt (text.take L).length).toNat < 2 ^ 31 := by
      have := toInt_lt (text.take L).length
      omega
    generalize (toInt (text.take L).length).toNat = rdlen at hnext hread
    rw [hnext] at h
    split at h
    · rename_i hfull
      have hle := List.length_runTail_le topBit b (bs.take (rdlen - 1))
      have := List.length_take_le (rdlen - 1) bs
      omega
    · cases h

/-- No line is insufficient exactly when all runs are shorter than the buffer, or nothing is
read by runs. -/
theorem exists_lines_iff (h0 : 0 < L) : (∃ lines left, Lines host bom L text lines left) ↔
    (isText bom = true → L < 2 ^ 31 → ∀ run ∈ List.runs topBit text, run.length < L) := by
  constructor
  · rintro ⟨lines, left, hlines⟩ ht hL
    induction hlines with
    | @ended text hend =>
        rcases text with _ | ⟨b, bs⟩
        · intro run hrun
          cases hrun
        · rw [nextLine_text ht hL h0] at hend
          split at hend
          · rcases hend with hend | hend
            · cases hend
            · cases Line.line.inj hend
          · rcases hend with hend | hend <;> cases hend
    | @line text bytes left lines hline hne _ ih =>
        rcases text with _ | ⟨b, bs⟩
        · intro run hrun
          cases hrun
        · rw [nextLine_text ht hL h0] at hline
          split at hline
          · rename_i hshort
            obtain rfl := Line.line.inj hline
            rw [List.runs_cons]
            intro run hrun
            rcases List.mem_cons.mp hrun with rfl | hrun
            · exact hshort
            · exact ih run hrun
          · cases hline
  · intro hruns
    by_cases hcounted : isText bom = true ∧ L < 2 ^ 31
    · obtain ⟨ht, hL⟩ := hcounted
      exact ⟨_, _, lines_text ht hL text (hruns ht hL)⟩
    · exact exists_lines_of_ne_insuff text fun k hins => hcounted (lt_of_nextLine_insuff hins)

end Sufficient

end Convd
