/-
# `Convd.Replace` — replacing a pattern in a string

`cstr_replace_new` of `cstrbuf.h` searches twice: once to count the occurrences of the
pattern, which gives the length of the result, and once to copy.  The length is reckoned
with a difference that may be negative, in `size_t`; modulo 2 ^ 64 it comes out right:

    orilen + patcnt * (replen - patlen)

An empty pattern is found where it was found before, and the first search does not end.
-/
import Convd.Def
import Convd.Lib.Loop
import Convd.Lib.Occurrences

namespace Convd

open CString Loop

/-! ## The code -/

/-- The loop that counts: `oriptr` as an offset, and `patcnt`. -/
def countTurn (original pattern : List UInt8) : Nat × Nat → Turn (Nat × Nat) Nat
  | (oriptr, patcnt) =>
      match strstr pattern (original.drop oriptr) with
      | some skip => .again (oriptr + skip + pattern.length, patcnt + 1)
      | none => .leave patcnt

/-- `strncpy(dst + off, src, n)`: short of `n` characters it fills up with NULs. -/
def strncpy (dst : Mem UInt8) (off : Nat) (src : List UInt8) (n : Nat) : Mem UInt8 :=
  dst.store off (src.take n ++ List.replicate (n - src.length) 0)

/-- The variables of the loop that copies; `log` are the writes to `result`. -/
structure CopyState where
  oriptr : Nat
  result : Mem UInt8
  retptr : Nat
  log : List Span

def copyTurn (original pattern replacement : List UInt8) (st : CopyState) :
    Turn CopyState CopyState :=
  match strstr pattern (original.drop st.oriptr) with
  | some skplen =>
      let result := strncpy st.result st.retptr (original.drop st.oriptr) skplen
      let retptr := st.retptr + skplen
      .again ⟨st.oriptr + skplen + pattern.length,
        strncpy result retptr replacement replacement.length, retptr + replacement.length,
        st.log ++ [⟨st.retptr, skplen⟩, ⟨retptr, replacement.length⟩]⟩
  | none => .leave st

/-- The block a call stores in `*outresult`: its size, its bytes, the writes to it. -/
structure Replaced where
  alloc : Nat
  bytes : Mem UInt8
  log : List Span

/-- `cstr_replace_new`: the result and `*outresult`; none when a loop has not ended on this
fuel.  `junk` is what the new block holds. -/
def cstrReplaceNew (fuel : Nat) (junk : Mem UInt8) (original pattern replacement : List UInt8) :
    Option (Int × Option Replaced) :=
  match run (countTurn original pattern) fuel (0, 0) with
  | none => none
  | some patcnt =>
      if patcnt ≠ 0 then
        let len : UInt64 := UInt64.ofNat original.length + UInt64.ofNat patcnt
          * (UInt64.ofNat replacement.length - UInt64.ofNat pattern.length)
        match run (copyTurn original pattern replacement) fuel ⟨0, junk, 0, []⟩ with
        | none => none
        | some st =>
            let rest := original.drop st.oriptr
            some (toInt len.toNat, some ⟨(len + 1).toNat, st.result.store st.retptr (rest ++ [0]),
              st.log ++ [⟨st.retptr, rest.length + 1⟩]⟩)
      else some (0, none)

/-! ## The loops -/

section Loops

variable {original pattern replacement : List UInt8} {ps : List (List UInt8)}

/-- What a turn of either loop finds. -/
theorem drop_next {a l : List UInt8} {oriptr : Nat}
    (h : original.drop oriptr = a ++ (pattern ++ l)) :
    original.drop (oriptr + a.length + pattern.length) = l := by
  rw [Nat.add_assoc, ← List.drop_drop, h, ← List.drop_drop, List.drop_left, List.drop_left]

/-- The parts are one more than the occurrences. -/
theorem run_countTurn {s : List UInt8} (h : List.CutAt pattern s ps) :
    ∀ {fuel oriptr patcnt : Nat}, original.drop oriptr = s → ps.length ≤ fuel →
      run (countTurn original pattern) fuel (oriptr, patcnt) = some (patcnt + (ps.length - 1)) := by
  induction h with
  | rest hnone =>
      intro fuel oriptr patcnt hs hfuel
      obtain ⟨n, rfl⟩ := Nat.exists_eq_add_of_le' hfuel
      apply run_succ_leave
      simp only [countTurn, hs, strstr_of_not hnone]
      rfl
  | @part a l ps hfirst hl ih =>
      intro fuel oriptr patcnt hs hfuel
      obtain ⟨n, rfl⟩ := Nat.exists_eq_add_of_le' (Nat.le_trans (Nat.le_add_left 1 _) hfuel)
      have hpos := List.length_pos_iff.mpr hl.ne_nil
      have hturn : countTurn original pattern (oriptr, patcnt)
          = .again (oriptr + a.length + pattern.length, patcnt + 1) := by
        simp only [countTurn, hs, strstr_of_first hfirst]
      rw [run_succ_again hturn, ih (drop_next hs) (Nat.le_of_succ_le_succ hfuel), List.length_cons]
      congr 1
      omega

theorem strncpy_eq {src : List UInt8} {n : Nat} (h : n ≤ src.length) (dst : Mem UInt8) (off : Nat) :
    strncpy dst off src n = dst.store off (src.take n) := by
  rw [strncpy, Nat.sub_eq_zero_of_le h, List.replicate_zero, List.append_nil]

/-- The copy of what is ahead: what is in front of `retptr` stays, behind it come the parts with
the replacement between them, and the last part is left to `strcpy`. -/
structure Copies (original : List UInt8) (st st' : CopyState) (text : List UInt8) : Prop where
  load_eq : st'.result.load 0 st'.retptr ++ original.drop st'.oriptr
    = st.result.load 0 st.retptr ++ text
  retptr_le : st.retptr ≤ st'.retptr
  log_within : ∀ w ∈ st'.log, w ∈ st.log ∨ w.Within st'.retptr

theorem Copies.length_eq {st st' : CopyState} {text : List UInt8}
    (h : Copies original st st' text) :
    st'.retptr + (original.drop st'.oriptr).length = st.retptr + text.length := by
  have hlen := congrArg List.length h.load_eq
  rwa [List.length_append, List.length_append, Mem.length_load, Mem.length_load] at hlen

/-- A turn of the loop that copies. -/
theorem copyTurn_again {st : CopyState} {a l : List UInt8}
    (hs : original.drop st.oriptr = a ++ (pattern ++ l))
    (hfirst : ∀ q < a.length, ¬ pattern <+: (a ++ (pattern ++ l)).drop q) :
    copyTurn original pattern replacement st = .again
      ⟨st.oriptr + a.length + pattern.length,
        (st.result.store st.retptr a).store (st.retptr + a.length) replacement,
        st.retptr + a.length + replacement.length,
        st.log ++ [⟨st.retptr, a.length⟩, ⟨st.retptr + a.length, replacement.length⟩]⟩ := by
  have hskip : a.length ≤ (a ++ (pattern ++ l)).length := by
    rw [List.length_append]
    exact Nat.le_add_right _ _
  simp only [copyTurn, hs, strstr_of_first hfirst, strncpy_eq hskip, strncpy_eq (Nat.le_refl _),
    List.take_left, List.take_length]

theorem run_copyTurn {s : List UInt8} (h : List.CutAt pattern s ps) :
    ∀ {fuel : Nat} {st : CopyState}, original.drop st.oriptr = s → ps.length ≤ fuel →
      ∃ st', run (copyTurn original pattern replacement) fuel st = some st' ∧
        Copies original st st' (List.intercalate replacement ps) := by
  induction h with
  | @rest l hnone =>
      intro fuel st hs hfuel
      obtain ⟨n, rfl⟩ := Nat.exists_eq_add_of_le' hfuel
      refine ⟨st, run_succ_leave ?_, ?_, Nat.le_refl _, fun w hw => .inl hw⟩
      · simp only [copyTurn, hs, strstr_of_not hnone]
      · rw [hs, List.intercalate_singleton]
  | @part a l ps hfirst hl ih =>
      intro fuel st hs hfuel
      obtain ⟨n, rfl⟩ := Nat.exists_eq_add_of_le' (Nat.le_trans (Nat.le_add_left 1 _) hfuel)
      have hturn := @copyTurn_again original pattern replacement st a l hs hfirst
      obtain ⟨st', hrun, hcopies⟩ := @ih n ⟨st.oriptr + a.length + pattern.length,
        (st.result.store st.retptr a).store (st.retptr + a.length) replacement,
        st.retptr + a.length + replacement.length,
        st.log ++ [⟨st.retptr, a.length⟩, ⟨st.retptr + a.length, replacement.length⟩]⟩
        (drop_next hs) (Nat.le_of_succ_le_succ hfuel)
      have hle : st.retptr + a.length + replacement.length ≤ st'.retptr := hcopies.retptr_le
      refine ⟨st', (run_succ_again hturn).trans hrun, ?_, by omega, ?_⟩
      · rw [hcopies.load_eq, Mem.load_store_append, Mem.load_store_append,
          List.intercalate_cons hl.ne_nil, List.append_assoc, List.append_assoc]
      · intro w hw
        rcases hcopies.log_within w hw with hw | hw
        · simp only [List.mem_append, List.mem_cons, List.not_mem_nil, or_false] at hw
          rcases hw with hw | rfl | rfl
          · exact .inl hw
          · exact .inr (show st.retptr + a.length ≤ st'.retptr by omega)
          · exact .inr hle
        · exact .inr hw

end Loops

/-! ## The call -/

/-- The length is right modulo 2 ^ 64, whatever the sign of the difference. -/
theorem replacedLen_eq {orilen patcnt replen patlen n : Nat}
    (h : n + patcnt * patlen = orilen + patcnt * replen) :
    UInt64.ofNat orilen + UInt64.ofNat patcnt * (UInt64.ofNat replen - UInt64.ofNat patlen)
      = UInt64.ofNat n := by
  have hcast := congrArg UInt64.ofNat h
  rw [UInt64.ofNat_add, UInt64.ofNat_add, UInt64.ofNat_mul, UInt64.ofNat_mul] at hcast
  grind

/-- What is promised of `cstr_replace_new`. -/
structure Replaces (original pattern replacement : List UInt8) (r : Int × Option Replaced) :
    Prop where
  absent : (∀ q, ¬ pattern <+: original.drop q) → r = (0, none)
  present : (∃ q, pattern <+: original.drop q) → ∃ ps, List.CutAt pattern original ps ∧
    ((List.intercalate replacement ps).length < 2 ^ 31 → ∃ block : Replaced,
      r = (((List.intercalate replacement ps).length : Int), some block) ∧
      block.alloc = (List.intercalate replacement ps).length + 1 ∧
      block.bytes.load 0 block.alloc = List.intercalate replacement ps ++ [0] ∧
      ∀ w ∈ block.log, w.Within block.alloc)

section Call

variable {original pattern replacement : List UInt8} {ps : List (List UInt8)}

/-- There are no more occurrences than characters. -/
theorem length_parts_le (h : List.CutAt pattern original ps) (hne : pattern ≠ []) :
    ps.length ≤ original.length + 1 := by
  have hlen := h.length_intercalate []
  have hmul := Nat.le_mul_of_pos_right (ps.length - 1) (List.length_pos_iff.mpr hne)
  rw [List.length_nil, Nat.mul_zero] at hlen
  omega

/-- The call when the pattern occurs. -/
theorem cstrReplaceNew_present (junk : Mem UInt8) (h : List.CutAt pattern original ps)
    (hmany : 1 < ps.length) : ∃ r, (∀ fuel, ps.length ≤ fuel →
        cstrReplaceNew fuel junk original pattern replacement = some r) ∧
      ((List.intercalate replacement ps).length < 2 ^ 31 → ∃ block : Replaced,
        r = (((List.intercalate replacement ps).length : Int), some block) ∧
        block.alloc = (List.intercalate replacement ps).length + 1 ∧
        block.bytes.load 0 block.alloc = List.intercalate replacement ps ++ [0] ∧
        ∀ w ∈ block.log, w.Within block.alloc) := by
  obtain ⟨st, hcopy, hcopies⟩ := @run_copyTurn original pattern replacement ps original h ps.length
    ⟨0, junk, 0, []⟩ List.drop_zero (Nat.le_refl _)
  have hlen := replacedLen_eq (h.length_intercalate replacement)
  have hret : ∀ fuel, ps.length ≤ fuel →
      cstrReplaceNew fuel junk original pattern replacement
        = some (toInt (UInt64.ofNat (List.intercalate replacement ps).length).toNat,
          some ⟨(UInt64.ofNat (List.intercalate replacement ps).length + 1).toNat,
            st.result.store st.retptr (original.drop st.oriptr ++ [0]),
            st.log ++ [⟨st.retptr, (original.drop st.oriptr).length + 1⟩]⟩) := by
    intro fuel hfuel
    have hcount := @run_countTurn original pattern ps original h fuel 0 0 List.drop_zero hfuel
    simp only [cstrReplaceNew, hcount, Nat.zero_add, if_pos (Nat.sub_ne_zero_of_lt hmany), hlen,
      run_mono hfuel hcopy]
  refine ⟨_, hret, ?_⟩
  intro hfits
  have htext : st.result.load 0 st.retptr ++ original.drop st.oriptr
      = List.intercalate replacement ps := hcopies.load_eq
  generalize List.intercalate replacement ps = text at *
  have hend : st.retptr + (original.drop st.oriptr).length = text.length := by
    rw [← htext, List.length_append, Mem.length_load]
  have hnat : (UInt64.ofNat text.length).toNat = text.length :=
    UInt64.toNat_ofNat_of_lt (show text.length < 2 ^ 64 by omega)
  have halloc : (UInt64.ofNat text.length + 1).toNat = text.length + 1 := by
    rw [UInt64.toNat_add, hnat]
    exact Nat.mod_eq_of_lt (show text.length + 1 < 2 ^ 64 by omega)
  rw [hnat, toInt_of_lt hfits]
  refine ⟨_, rfl, halloc, ?_, ?_⟩
  · have hload := Mem.load_store_append st.result st.retptr (original.drop st.oriptr ++ [0])
    rw [List.length_append, List.length_singleton, ← Nat.add_assoc, hend, ← List.append_assoc,
      htext] at hload
    rw [halloc, hload]
  · intro w hw
    rw [halloc]
    rcases List.mem_append.mp hw with hw | hw
    · rcases hcopies.log_within w hw with hw | hw
      · cases hw
      · have hin : w.off + w.len ≤ st.retptr := hw
        show w.off + w.len ≤ text.length + 1
        omega
    · rw [List.mem_singleton.mp hw]
      show st.retptr + ((original.drop st.oriptr).length + 1) ≤ text.length + 1
      omega

/-- The call when it does not. -/
theorem cstrReplaceNew_absent {fuel : Nat} (junk : Mem UInt8)
    (h : List.CutAt pattern original ps) (hone : ps.length = 1) (hfuel : 1 ≤ fuel) :
    cstrReplaceNew fuel junk original pattern replacement = some (0, none) := by
  have hcount := @run_countTurn original pattern ps original h fuel 0 0 List.drop_zero
    (hone.trans_le hfuel)
  rw [hone] at hcount
  simp only [cstrReplaceNew, hcount]
  rfl

end Call

/-- Whatever the strings, unless the pattern is empty; more turns than there are characters
are not needed. -/
theorem cstrReplaceNew_replaces (junk : Mem UInt8) (original : List UInt8) {pattern : List UInt8}
    (replacement : List UInt8) (hne : pattern ≠ []) :
    ∃ r, (∀ fuel, original.length < fuel →
        cstrReplaceNew fuel junk original pattern replacement = some r) ∧
      Replaces original pattern replacement r := by
  obtain ⟨ps, hcut⟩ := exists_cutAt hne original
  have hparts := length_parts_le hcut hne
  by_cases hmany : 1 < ps.length
  · obtain ⟨r, hret, hblock⟩ :=
      @cstrReplaceNew_present original pattern replacement ps junk hcut hmany
    refine ⟨r, fun fuel hfuel => hret fuel (by omega), ?_, fun _ => ⟨ps, hcut, hblock⟩⟩
    intro hnone
    obtain rfl := hcut.unique (.rest hnone)
    exact absurd hmany (Nat.lt_irrefl 1)
  · have hpos := List.length_pos_iff.mpr hcut.ne_nil
    refine ⟨(0, none), fun fuel hfuel => cstrReplaceNew_absent junk hcut (by omega) (by omega),
      fun _ => rfl, ?_⟩
    rintro ⟨q, hq⟩
    cases hcut with
    | rest hnone => exact absurd hq (hnone q)
    | part _ hl => exact absurd (Nat.succ_lt_succ (List.length_pos_iff.mpr hl.ne_nil)) hmany

/-- Two occurrences, and a replacement that is shorter. -/
theorem cstrReplaceNew_replaces_shorter : ∃ r,
    (∀ fuel, (ascii "abxab").length < fuel → cstrReplaceNew fuel (fun _ => 0) (ascii "abxab")
      (ascii "ab") (ascii "c") = some r) ∧
    Replaces (ascii "abxab") (ascii "ab") (ascii "c") r :=
  cstrReplaceNew_replaces _ _ _ (by decide)

/-! ## The empty pattern -/

/-- The call ends. -/
def Terminates (junk : Mem UInt8) (original pattern replacement : List UInt8) : Prop :=
  ∃ fuel r, cstrReplaceNew fuel junk original pattern replacement = some r

/-- The empty pattern is found where the search begins, and the search begins there again. -/
theorem countTurn_nil (original : List UInt8) (oriptr patcnt : Nat) :
    countTurn original [] (oriptr, patcnt) = .again (oriptr, patcnt + 1) := by
  rw [countTurn, strstr_of_prefix List.nil_prefix]
  rfl

theorem run_countTurn_nil (original : List UInt8) (fuel : Nat) (st : Nat × Nat) :
    run (countTurn original []) fuel st = none := by
  have hstuck : ∀ st : Nat × Nat, True → ∃ st', countTurn original [] st = .again st' ∧ True :=
    fun st _ => ⟨_, countTurn_nil original st.1 st.2, trivial⟩
  exact run_none_of_stuck hstuck fuel trivial

theorem cstrReplaceNew_nil (fuel : Nat) (junk : Mem UInt8) (original replacement : List UInt8) :
    cstrReplaceNew fuel junk original [] replacement = none := by
  rw [cstrReplaceNew, run_countTurn_nil]

/-- It is the first loop that does not end, and no other pattern keeps it from ending. -/
theorem cstrReplaceNew_terminates_iff (junk : Mem UInt8)
    (original pattern replacement : List UInt8) :
    Terminates junk original pattern replacement ↔ pattern ≠ [] := by
  constructor
  · rintro ⟨fuel, r, hcall⟩ rfl
    rw [cstrReplaceNew_nil] at hcall
    cases hcall
  · intro hne
    obtain ⟨ps, hcut⟩ := exists_cutAt hne original
    by_cases hmany : 1 < ps.length
    · obtain ⟨r, hret, -⟩ :=
        @cstrReplaceNew_present original pattern replacement ps junk hcut hmany
      exact ⟨ps.length, r, hret _ (Nat.le_refl _)⟩
    · have hpos := List.length_pos_iff.mpr hcut.ne_nil
      exact ⟨1, _, cstrReplaceNew_absent junk hcut (by omega) (Nat.le_refl 1)⟩

theorem not_terminates_nil : ¬ Terminates (fun _ => 0) (ascii "abc") [] (ascii "x") := by
  rintro ⟨fuel, r, hcall⟩
  rw [cstrReplaceNew_nil] at hcall
  cases hcall

end Convd
