/-
# `Convd.Readline` — reading a file line by line

`cstr_readline` of `cstrbuf.h` reads to the end of a line and keeps what is no `\r`, `\n` or `\`,
and, if so asked, no white space, as long as there is room.  Called until it returns -1 it gives
the lines of the file:

    file, after a mark of UTF-8          lines, of at most 4 characters
    "ab\ncdefgh\r\n\nx"                  ab    cdef    (empty)    x
    "ab\n" and "ab\n\\ \r"               ab

The last line is none if nothing of it is kept, and ends the file even though `ch` was not the
first thing read.  The NUL goes to `line[maxlen]` at the furthest.
-/
import Convd.Def
import Convd.Lib.CString
import Convd.Lib.Loop

namespace Convd

open CString Loop

/-! ## The code -/

/-- `FILE`, as far as it can be read. -/
structure Stream where
  content : List UInt8
  pos : Nat
  deriving DecidableEq, Repr

/-- `fgetc`; none is `EOF`. -/
def Stream.fgetc (fp : Stream) : Option UInt8 × Stream :=
  match fp.content[fp.pos]? with
  | some ch => (some ch, { fp with pos := fp.pos + 1 })
  | none => (none, fp)

/-- At the beginning of the file: behind the mark, if there is one.  The three calls are made from
left to right. -/
def skipBomhead (fp : Stream) : Stream :=
  if fp.pos = 0 then
    let a := fp.fgetc
    let b := a.2.fgetc
    let c := b.2.fgetc
    if a.1 = some 0xEF ∧ b.1 = some 0xBB ∧ c.1 = some 0xBF then { c.2 with pos := 3 }
    else { c.2 with pos := 0 }
  else fp

/-- The variables of the loop. -/
structure ReadlineState where
  fp : Stream
  len : Nat
  line : Mem UInt8

/-- `ch != '\r' && ch != '\n' && ch != '\\'`, and no white space if this is ignored. -/
def keeps (ignoreWhitespace : Bool) (ch : UInt8) : Bool :=
  ch != 13 && ch != 10 && ch != 92 && (! ignoreWhitespace || ! isspace ch)

/-- A turn of `while ((ch = fgetc(fp)) != EOF)`; whether `ch` was `EOF`. -/
def readlineTurn (maxlen : Nat) (ignoreWhitespace : Bool) (st : ReadlineState) :
    Turn ReadlineState (Bool × ReadlineState) :=
  match st.fp.fgetc with
  | (none, fp) => .leave (true, { st with fp := fp })
  | (some ch, fp) =>
      let st : ReadlineState :=
        if st.len < maxlen then
          if keeps ignoreWhitespace ch then ⟨fp, st.len + 1, st.line.store st.len [ch]⟩
          else { st with fp := fp }
        else { st with fp := fp }
      if ch = 10 then .leave (false, st) else .again st

/-- `cstr_readline`: what it returns, the line, the stream. -/
def cstrReadline (maxlen : Nat) (ignoreWhitespace : Bool) (fuel : Nat) (fp : Stream)
    (line : Mem UInt8) : Option (Int × Mem UInt8 × Stream) :=
  match run (readlineTurn maxlen ignoreWhitespace) fuel ⟨skipBomhead fp, 0, line⟩ with
  | none => none
  | some (eof, st) =>
      if eof ∧ st.len = 0 then some (-1, st.line, st.fp)
      else some (toInt st.len, st.line.store st.len [0], st.fp)

/-- The call returns. -/
def ReadlineReturns (maxlen : Nat) (ignoreWhitespace : Bool) (fp : Stream) (line : Mem UInt8)
    (r : Int × Mem UInt8 × Stream) : Prop :=
  ∃ fuel, cstrReadline maxlen ignoreWhitespace fuel fp line = some r

/-- The lines that are read until -1 is returned, always into the same array.  Nothing behind
`line[maxlen]` is written. -/
inductive ReadsLines (maxlen : Nat) (ignoreWhitespace : Bool) :
    Stream → Mem UInt8 → List (List UInt8) → Prop where
  | eof {fp fp' : Stream} {line line' : Mem UInt8} :
      ReadlineReturns maxlen ignoreWhitespace fp line (-1, line', fp') →
      (∀ i, maxlen < i → line' i = line i) →
      ReadsLines maxlen ignoreWhitespace fp line []
  | line {fp fp' : Stream} {line line' : Mem UInt8} {text : List UInt8}
      {lines : List (List UInt8)} :
      ReadlineReturns maxlen ignoreWhitespace fp line (text.length, line', fp') →
      line'.load 0 (text.length + 1) = text ++ [0] →
      (∀ i, maxlen < i → line' i = line i) →
      ReadsLines maxlen ignoreWhitespace fp' line' lines →
      ReadsLines maxlen ignoreWhitespace fp line (text :: lines)

/-! ## What should be read -/

/-- What is kept of a line. -/
def keptOf (maxlen : Nat) (ignoreWhitespace : Bool) (l : List UInt8) : List UInt8 :=
  (l.filter (keeps ignoreWhitespace)).take maxlen

/-- The lines of a text: what is between the newlines, and behind the last one what there is. -/
def keptLines (maxlen : Nat) (ignoreWhitespace : Bool) (text : List UInt8) : List (List UInt8) :=
  let lines := (text.splitOn 10).map (keptOf maxlen ignoreWhitespace)
  if lines.getLast? = some [] then lines.dropLast else lines

/-- The text of a file, behind its mark. -/
def textBehindMark (file : List UInt8) : List UInt8 :=
  if [0xEF, 0xBB, 0xBF] <+: file then file.drop 3 else file

/-! ## One call -/

section Call

variable {maxlen : Nat} {ignoreWhitespace : Bool} {content rest seg : List UInt8}

theorem fgetc_cons {pos : Nat} {c : UInt8} (h : content.drop pos = c :: rest) :
    (⟨content, pos⟩ : Stream).fgetc = (some c, ⟨content, pos + 1⟩) := by
  have hget : content[pos]? = some c := by
    rw [← Nat.add_zero pos, ← List.getElem?_drop, h, List.getElem?_cons_zero]
  simp only [Stream.fgetc, hget]

theorem fgetc_nil {pos : Nat} (h : content.drop pos = []) :
    (⟨content, pos⟩ : Stream).fgetc = (none, ⟨content, pos⟩) := by
  have hget : content[pos]? = none := List.getElem?_eq_none (List.drop_eq_nil_iff.mp h)
  simp only [Stream.fgetc, hget]

/-- A character that does not end the line is kept, if it is one to keep and there is room. -/
theorem readlineTurn_cons {pos len : Nat} {c : UInt8} {line : Mem UInt8}
    (h : content.drop pos = c :: rest) (hc : c ≠ 10) (hlen : len ≤ maxlen) :
    ∃ len' line', readlineTurn maxlen ignoreWhitespace ⟨⟨content, pos⟩, len, line⟩
        = .again ⟨⟨content, pos + 1⟩, len', line'⟩ ∧ len' ≤ maxlen ∧
      line'.load 0 len' = line.load 0 len
        ++ ([c].filter (keeps ignoreWhitespace)).take (maxlen - len) ∧
      ∀ i, maxlen < i → line' i = line i := by
  simp only [readlineTurn, fgetc_cons h, if_neg hc]
  by_cases hroom : len < maxlen
  · rw [if_pos hroom]
    obtain ⟨k, hk⟩ := Nat.exists_eq_succ_of_ne_zero (Nat.sub_ne_zero_of_lt hroom)
    cases hkeeps : keeps ignoreWhitespace c with
    | true =>
        refine ⟨len + 1, line.store len [c], rfl, hroom, ?_, fun i hi => ?_⟩
        · rw [List.filter_cons_of_pos hkeeps, hk, List.take_succ_cons, List.filter_nil,
            List.take_nil]
          exact Mem.load_store_append line len [c]
        · exact Mem.store_singleton_of_ne line c (by omega)
    | false =>
        have hnot : ¬ keeps ignoreWhitespace c = true := by simp [hkeeps]
        refine ⟨len, line, rfl, hlen, ?_, fun i hi => rfl⟩
        rw [List.filter_cons_of_neg hnot, List.filter_nil, List.take_nil, List.append_nil]
  · rw [if_neg hroom]
    refine ⟨len, line, rfl, hlen, ?_, fun i hi => rfl⟩
    rw [Nat.sub_eq_zero_of_le (Nat.le_of_not_lt hroom), List.take_zero, List.append_nil]

/-- The loop passes over what is in front of the end of the line. -/
theorem readlineTurn_passes : ∀ {seg : List UInt8} {pos len : Nat} {line : Mem UInt8},
    content.drop pos = seg ++ rest → 10 ∉ seg → len ≤ maxlen →
    ∃ len' line', len' ≤ maxlen ∧
      line'.load 0 len' = line.load 0 len
        ++ (seg.filter (keeps ignoreWhitespace)).take (maxlen - len) ∧
      (∀ i, maxlen < i → line' i = line i) ∧
      ∀ r, Returns (readlineTurn maxlen ignoreWhitespace)
          ⟨⟨content, pos + seg.length⟩, len', line'⟩ r →
        Returns (readlineTurn maxlen ignoreWhitespace) ⟨⟨content, pos⟩, len, line⟩ r := by
  intro seg
  induction seg with
  | nil =>
      intro pos len line _ _ hlen
      exact ⟨len, line, hlen, by simp, fun i _ => rfl, fun r hr => hr⟩
  | cons c seg ih =>
      intro pos len line h hseg hlen
      rw [List.mem_cons, not_or] at hseg
      obtain ⟨len₁, line₁, hturn, hlen₁, hload₁, hframe₁⟩ :=
        @readlineTurn_cons maxlen ignoreWhitespace content (seg ++ rest) pos len c line h
          (Ne.symm hseg.1) hlen
      have hnext : content.drop (pos + 1) = seg ++ rest := by
        rw [← List.drop_drop, h, List.cons_append, List.drop_succ_cons, List.drop_zero]
      obtain ⟨len₂, line₂, hlen₂, hload₂, hframe₂, hreturns⟩ :=
        @ih (pos + 1) len₁ line₁ hnext hseg.2 hlen₁
      refine ⟨len₂, line₂, hlen₂, ?_, fun i hi => (hframe₂ i hi).trans (hframe₁ i hi), ?_⟩
      · have hsize := congrArg List.length hload₁
        rw [Mem.length_load, List.length_append, Mem.length_load, List.length_take] at hsize
        have hleft : maxlen - len - ([c].filter (keeps ignoreWhitespace)).length
            = maxlen - len₁ := by omega
        have hsplit : (c :: seg).filter (keeps ignoreWhitespace)
            = [c].filter (keeps ignoreWhitespace) ++ seg.filter (keeps ignoreWhitespace) :=
          List.filter_append [c] seg
        rw [hload₂, hload₁, hsplit, List.take_append, hleft, List.append_assoc]
      · intro r hr
        rw [List.length_cons, Nat.add_comm seg.length, ← Nat.add_assoc] at hr
        exact .again hturn (hreturns r hr)

/-- A line with its newline. -/
theorem readlineTurn_line {pos : Nat} {line : Mem UInt8} (h : content.drop pos = seg ++ 10 :: rest)
    (hseg : 10 ∉ seg) :
    ∃ st, Returns (readlineTurn maxlen ignoreWhitespace) ⟨⟨content, pos⟩, 0, line⟩ (false, st) ∧
      st.fp = ⟨content, pos + (seg.length + 1)⟩ ∧ st.len ≤ maxlen ∧
      st.line.load 0 st.len = keptOf maxlen ignoreWhitespace seg ∧
      ∀ i, maxlen < i → st.line i = line i := by
  obtain ⟨len, line', hlen, hload, hframe, hreturns⟩ :=
    @readlineTurn_passes maxlen ignoreWhitespace content (10 :: rest) seg pos 0 line h hseg
      (Nat.zero_le maxlen)
  have hnext : content.drop (pos + seg.length) = 10 :: rest := by
    rw [← List.drop_drop, h, List.drop_left]
  have hnot : keeps ignoreWhitespace 10 = false := rfl
  refine ⟨⟨⟨content, pos + seg.length + 1⟩, len, line'⟩, hreturns _ (.leave ?_), rfl, hlen, ?_,
    hframe⟩
  · simp only [readlineTurn, fgetc_cons hnext, hnot, Bool.false_eq_true, if_false, ite_self,
      if_true]
  · rw [hload, Mem.load_zero, List.nil_append, Nat.sub_zero]
    rfl

/-- A line without. -/
theorem readlineTurn_last {pos : Nat} {line : Mem UInt8} (h : content.drop pos = seg)
    (hseg : 10 ∉ seg) :
    ∃ st, Returns (readlineTurn maxlen ignoreWhitespace) ⟨⟨content, pos⟩, 0, line⟩ (true, st) ∧
      st.fp = ⟨content, pos + seg.length⟩ ∧ st.len ≤ maxlen ∧
      st.line.load 0 st.len = keptOf maxlen ignoreWhitespace seg ∧
      ∀ i, maxlen < i → st.line i = line i := by
  obtain ⟨len, line', hlen, hload, hframe, hreturns⟩ :=
    @readlineTurn_passes maxlen ignoreWhitespace content [] seg pos 0 line
      (h.trans (List.append_nil seg).symm) hseg (Nat.zero_le maxlen)
  have hnext : content.drop (pos + seg.length) = [] := by
    rw [← List.drop_drop, h, List.drop_length]
  refine ⟨⟨⟨content, pos + seg.length⟩, len, line'⟩, hreturns _ (.leave ?_), rfl, hlen, ?_,
    hframe⟩
  · simp only [readlineTurn, fgetc_nil hnext]
  · rw [hload, Mem.load_zero, List.nil_append, Nat.sub_zero]
    rfl

/-- What the call makes of how the loop left. -/
theorem readlineReturns_of_loop {fp : Stream} {line : Mem UInt8} {eof : Bool} {st : ReadlineState}
    (h : Returns (readlineTurn maxlen ignoreWhitespace) ⟨skipBomhead fp, 0, line⟩ (eof, st)) :
    ReadlineReturns maxlen ignoreWhitespace fp line
      (if eof ∧ st.len = 0 then (-1, st.line, st.fp)
      else (toInt st.len, st.line.store st.len [0], st.fp)) := by
  obtain ⟨fuel, hrun⟩ := h
  refine ⟨fuel, ?_⟩
  rw [cstrReadline, hrun]
  dsimp only
  split <;> rfl

/-! ## The whole file -/

/-- A stream that is not at the beginning, or has no mark there, is read where it stands. -/
theorem skipBomhead_eq {pos : Nat} (h : 0 < pos ∨ ¬ [0xEF, 0xBB, 0xBF] <+: content) :
    skipBomhead ⟨content, pos⟩ = ⟨content, pos⟩ := by
  by_cases hpos : pos = 0
  · have hmark := h.resolve_left (by omega)
    rw [skipBomhead, if_pos hpos, hpos]
    rcases content with _ | ⟨a, _ | ⟨b, _ | ⟨c, rest⟩⟩⟩
    · rfl
    · simp [Stream.fgetc]
    · simp [Stream.fgetc]
    · have hno : ¬ (a = 0xEF ∧ b = 0xBB ∧ c = 0xBF) := by
        rintro ⟨rfl, rfl, rfl⟩
        exact hmark ⟨rest, rfl⟩
      simp [Stream.fgetc, hno]
  · rw [skipBomhead, if_neg hpos]

theorem skipBomhead_mark (h : [0xEF, 0xBB, 0xBF] <+: content) :
    skipBomhead ⟨content, 0⟩ = ⟨content, 3⟩ := by
  obtain ⟨rest, rfl⟩ := h
  rfl

theorem keptLines_cons (hseg : 10 ∉ seg) :
    keptLines maxlen ignoreWhitespace (seg ++ 10 :: rest)
      = keptOf maxlen ignoreWhitespace seg :: keptLines maxlen ignoreWhitespace rest := by
  have hsplit : (seg ++ 10 :: rest).splitOn 10 = seg :: rest.splitOn 10 :=
    List.splitOn_append_cons_self_of_not_mem hseg rest
  obtain ⟨l, ls, hls⟩ := List.exists_cons_of_ne_nil (List.splitOn_ne_nil 10 rest)
  rw [keptLines, keptLines, hsplit, hls]
  simp only [List.map_cons, List.getLast?_cons_cons, List.dropLast_cons_cons]
  split <;> rfl

theorem keptLines_last (hseg : 10 ∉ seg) :
    keptLines maxlen ignoreWhitespace seg
      = if keptOf maxlen ignoreWhitespace seg = [] then []
        else [keptOf maxlen ignoreWhitespace seg] := by
  rw [keptLines, List.splitOn_eq_singleton hseg]
  simp

/-- A call that found a line. -/
theorem ReadsLines.of_line {fp : Stream} {line : Mem UInt8} {lines : List (List UInt8)} {eof : Bool}
    {st : ReadlineState} (hmax : maxlen < 2 ^ 31)
    (h : Returns (readlineTurn maxlen ignoreWhitespace) ⟨skipBomhead fp, 0, line⟩ (eof, st))
    (hlen : st.len ≤ maxlen) (hframe : ∀ i, maxlen < i → st.line i = line i)
    (hsome : ¬ (eof ∧ st.len = 0))
    (hrest : ∀ line', ReadsLines maxlen ignoreWhitespace st.fp line' lines) :
    ReadsLines maxlen ignoreWhitespace fp line (st.line.load 0 st.len :: lines) := by
  have hcall := readlineReturns_of_loop h
  rw [if_neg hsome, toInt_of_lt (by omega)] at hcall
  have hsize : (st.line.load 0 st.len).length = st.len := Mem.length_load st.line 0 st.len
  refine .line (hsize.symm ▸ hcall) ?_ (fun i hi => ?_) (hrest _)
  · rw [hsize]
    exact Mem.load_store_append st.line st.len [0]
  · rw [← hframe i hi]
    exact Mem.store_singleton_of_ne _ _ (by omega)

/-- The end of the file, or a line of which nothing is kept and behind which it ends. -/
theorem readsLines_none {fp : Stream} {pos : Nat} (line : Mem UInt8) (h : content.drop pos = seg)
    (hseg : 10 ∉ seg) (hfp : skipBomhead fp = ⟨content, pos⟩)
    (hkept : keptOf maxlen ignoreWhitespace seg = []) :
    ReadsLines maxlen ignoreWhitespace fp line [] := by
  obtain ⟨st, hreturns, hst, hlen, hload, hframe⟩ :=
    @readlineTurn_last maxlen ignoreWhitespace content seg pos line h hseg
  rw [← hfp] at hreturns
  have hzero : st.len = 0 := by
    rw [← Mem.length_load st.line 0 st.len, hload, hkept, List.length_nil]
  have hcall := readlineReturns_of_loop hreturns
  rw [if_pos ⟨rfl, hzero⟩] at hcall
  exact .eof hcall hframe

/-- The text that is still ahead. -/
theorem readsLines_from (hmax : maxlen < 2 ^ 31) (n : Nat) :
    ∀ {pos : Nat} {text : List UInt8} {fp : Stream} (line : Mem UInt8), text.length < n →
      content.drop pos = text → skipBomhead fp = ⟨content, pos⟩ →
      ReadsLines maxlen ignoreWhitespace fp line (keptLines maxlen ignoreWhitespace text) := by
  induction n with
  | zero =>
      intro pos text fp line hn
      exact absurd hn (Nat.not_lt_zero _)
  | succ n ih =>
      intro pos text fp line hn htext hfp
      by_cases hnl : 10 ∈ text
      · obtain ⟨seg, rest, rfl, hseg⟩ := List.eq_append_cons_of_mem hnl
        obtain ⟨st, hreturns, hst, hlen, hload, hframe⟩ :=
          @readlineTurn_line maxlen ignoreWhitespace content rest seg pos line htext hseg
        rw [List.length_append, List.length_cons] at hn
        have hnext : content.drop (pos + (seg.length + 1)) = rest := by
          rw [← List.drop_drop, htext, List.drop_append, List.drop_of_length_le (by omega)]
          simp
        rw [keptLines_cons hseg, ← hload]
        refine .of_line hmax (hfp ▸ hreturns) hlen hframe (fun h => Bool.false_ne_true h.1)
          fun line' => ?_
        rw [hst]
        exact ih line' (by omega) hnext (skipBomhead_eq (.inl (by omega)))
      · rw [keptLines_last hnl]
        split
        · exact readsLines_none line htext hnl hfp ‹_›
        · rename_i hkept
          obtain ⟨st, hreturns, hst, hlen, hload, hframe⟩ :=
            @readlineTurn_last maxlen ignoreWhitespace content text pos line htext hnl
          have hpos : 0 < text.length := by
            refine List.length_pos_of_ne_nil fun hnil => hkept ?_
            rw [hnil, keptOf, List.filter_nil, List.take_nil]
          have hnext : content.drop (pos + text.length) = [] := by
            rw [← List.drop_drop, htext, List.drop_length]
          rw [← hload] at hkept ⊢
          refine .of_line hmax (hfp ▸ hreturns) hlen hframe (fun h => hkept ?_) fun line' => ?_
          · rw [h.2, Mem.load_zero]
          · rw [hst]
            exact readsLines_none line' hnext List.not_mem_nil (skipBomhead_eq (.inl (by omega)))
              (by rw [keptOf, List.filter_nil, List.take_nil])

end Call

/-- The lines of a file, of any content and size, are what is read until -1 is returned. -/
theorem cstrReadline_reads {maxlen : Nat} (hmax : maxlen < 2 ^ 31) (ignoreWhitespace : Bool)
    (file : List UInt8) (line : Mem UInt8) :
    ReadsLines maxlen ignoreWhitespace ⟨file, 0⟩ line
      (keptLines maxlen ignoreWhitespace (textBehindMark file)) := by
  by_cases hmark : [0xEF, 0xBB, 0xBF] <+: file
  · rw [textBehindMark, if_pos hmark]
    exact readsLines_from hmax _ line (Nat.lt_succ_self _) rfl (skipBomhead_mark hmark)
  · rw [textBehindMark, if_neg hmark]
    exact readsLines_from hmax _ line (Nat.lt_succ_self _) rfl (skipBomhead_eq (.inr hmark))

theorem cstrReadline_reads_cut :
    ReadsLines 4 false ⟨[0xEF, 0xBB, 0xBF] ++ ascii "ab\ncdefgh\r\n\nx", 0⟩ (fun _ => 0)
      [ascii "ab", ascii "cdef", [], ascii "x"] := by
  have h := @cstrReadline_reads 4 (by decide) false
    ([0xEF, 0xBB, 0xBF] ++ ascii "ab\ncdefgh\r\n\nx") (fun _ => 0)
  have hlines : keptLines 4 false (textBehindMark
      ([0xEF, 0xBB, 0xBF] ++ ascii "ab\ncdefgh\r\n\nx"))
        = [ascii "ab", ascii "cdef", [], ascii "x"] := by decide +kernel
  rwa [hlines] at h

end Convd
