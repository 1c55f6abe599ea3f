/-
# `Convd.ConvFileChars` — `convd_conv_file` on a text of characters

The reader cuts a text where the top bit of its bytes changes, or at the size of the line
buffer, and knows nothing of characters.  Whether it divides one depends on the encoding:

    UTF-8, GB2312             the bytes of a long character all have their top bit set:
                              it is divided only where 2 ^ 31 bytes are read at a time
    GBK, BIG5, GB18030        a trail byte below 80 is cut off
    UTF-16                    a surrogate pair is divided where it crosses the end of a line

`convdConvFile_keepsCharacters_iff` says which files of characters are kept whole.
-/
import Convd.Encodings
import Convd.XmlFile

namespace Convd

open Loop

variable {σ : Type}

/-! ## Calls along the lines -/

/-- A run hands over lines, and nothing but a line is refused. -/
theorem RunOutcome.handed_prefix {e : Env} {ic : Iconv σ} {L : UInt32} {lines : List (List UInt8)}
    {outfdsize : Nat} {s : Sys} {r : FileResult} (h : RunOutcome e ic L lines outfdsize s r)
    (hnone : handed s.log = []) : handed r.sys.log <+: lines ∧
      (r.ret = convdErrIconv → ∃ input ∈ lines, Refuses ic L input) := by
  cases h with
  | done outs s' evs _ hlog _ hhanded _ =>
      refine ⟨?_, fun hret => absurd hret.symm (convdErr_ne convdErrIconv (by decide))⟩
      rw [hlog, handed_append, hnone, hhanded, List.nil_append]
  | refused before after outs input s' evs hsplit _ href hlog _ hhanded _ =>
      refine ⟨?_, fun _ => ⟨input, by simp [hsplit], href⟩⟩
      rw [hlog, handed_append, hnone, hhanded, List.nil_append, hsplit]
      exact ⟨after, by rw [List.append_assoc, List.singleton_append]⟩
  | fileFails s' evs _ hlog _ hprefix =>
      refine ⟨?_, fun hret => absurd hret (by decide : convdErrFile ≠ convdErrIconv)⟩
      rw [hlog, handed_append, hnone, List.nil_append]
      exact hprefix

section Along

variable {host : Endian} {e : Env} {ic : Iconv σ} {cd : σ} {inoffset : Nat}
  {outhead : List UInt8} {linesizemax : UInt32} {bom : UcsBom} {s : Sys} {r : FileResult}

/-- A call hands over lines of the file, and nothing but a line is refused. -/
theorem ConvFileReturnsFrom.along (h₀ : s.Fresh)
    (h : ConvFileReturnsFrom host e ic cd inoffset outhead linesizemax s r)
    (hbom : StartsWithBom e.file bom) (hin : bomLength bom + inoffset < 2 ^ 63)
    (hdropped : DroppedOk r.sys.log) {lines : List (List UInt8)} {left : List UInt8}
    (hlines : Lines host bom (lineSize linesizemax).toNat
      (e.file.drop (bomLength bom + inoffset)) lines left) :
    handed r.sys.log <+: lines ∧
      (r.ret = convdErrIconv → ∃ input ∈ lines, Refuses ic (lineSize linesizemax) input) := by
  rcases h.runs h₀ hbom hdropped hin hlines with
    ⟨hnone, ⟨hret, -⟩ | ⟨hret, -⟩⟩ | ⟨pos, st, hst, hrun⟩
  · exact ⟨hnone ▸ List.nil_prefix,
      fun hiconv => absurd (hret.symm.trans hiconv) (by decide : convdErrFile ≠ convdErrIconv)⟩
  · exact ⟨hnone ▸ List.nil_prefix,
      fun hiconv => absurd (hret.symm.trans hiconv) (by decide : convdErrEncoding ≠ convdErrIconv)⟩
  · exact hrun.handed_prefix hst.handed_eq

/-- Of a file that is a cut-off mark nothing is handed over. -/
theorem ConvFileReturnsFrom.of_ask (h₀ : s.Fresh)
    (h : ConvFileReturnsFrom host e ic cd inoffset outhead linesizemax s r)
    (hbom : StartsWithBom e.file .utf8BomAsk) (hdropped : DroppedOk r.sys.log) :
    handed r.sys.log = [] ∧ r.ret ≠ convdErrIconv := by
  rcases h.started h₀ hbom hdropped with
    ⟨hnone, ⟨hret, -⟩ | ⟨hret, -⟩⟩ | ⟨pos, st, hst, -⟩
  · exact ⟨hnone, hret ▸ (by decide : convdErrFile ≠ convdErrIconv)⟩
  · exact ⟨hnone, hret ▸ (by decide : convdErrEncoding ≠ convdErrIconv)⟩
  · exact absurd rfl hst.bom_ne

/-- There is a call that hands over all the lines. -/
theorem exists_call_handed {file : List UInt8} (hlt : file.length < 2 ^ 63)
    (hbom : StartsWithBom file bom) (hask : bom ≠ .utf8BomAsk)
    (hin : bomLength bom + inoffset < 2 ^ 63) {lines : List (List UInt8)} {left : List UInt8}
    (hlines : Lines host bom (lineSize linesizemax).toNat
      (file.drop (bomLength bom + inoffset)) lines left) :
    ∃ (e : Env) (r : FileResult), e.file = file ∧
      ConvFileReturns host e (.ofFun fun _ => some []) () inoffset [] linesizemax r ∧
      DroppedOk r.sys.log ∧ handed r.sys.log = lines := by
  have hfiles : (Env.bytewise file hlt fun _ => false).Faultless := fun _ => rfl
  obtain ⟨st, r, hst, hret, hrun⟩ :=
    hfiles.runs (.ofFun fun _ => some []) () [] hbom hask hin hlines
  refine ⟨_, r, rfl, hret, ?_⟩
  cases hrun with
  | done outs s' evs _ hlog hok hhanded _ =>
      rw [hlog, handed_append, hst.handed_eq, hhanded, List.nil_append]
      exact ⟨(allOk_append.mpr ⟨hst.log_ok, hok⟩).droppedOk, rfl⟩
  | refused before after outs input s' evs _ _ href _ _ _ _ =>
      obtain ⟨cd, hnone⟩ := href
      rw [Iconv.implements_ofFun] at hnone
      exact nomatch hnone
  | fileFails s' evs hfault _ _ _ =>
      exact absurd hfault hfiles.no_fault

end Along

/-! ## Whole characters -/

/-- No chunk that was handed over ends inside a character; the first begins at `start`, and
each where the one before it ended (`Lines.placed_eq`). -/
def EndsBetween (chars : List (List UInt8)) (start : Nat) (log : List Event) : Prop :=
  ∀ e, (handed log).EndsAt e → ¬ chars.Inside (start + e)

/-- Every piece of whole characters that fits a line is accepted, as it is handed over. -/
def Iconv.AcceptsPieces (ic : Iconv σ) (host : Endian) (bom : UcsBom) (chars : List (List UInt8))
    (L : UInt32) : Prop :=
  ∀ cd piece, piece <:+: chars → piece.flatten ≠ [] → piece.flatten.length ≤ L.toNat →
    (ic.text cd (forHost host bom piece.flatten) (L * 4).toNat).isSome

/-- No call on the file cuts a character in two, nor fails because of where it was cut.  A
character that `inoffset` divides counts as far as it is read. -/
def KeepsCharacters (host : Endian) (bom : UcsBom) (chars : List (List UInt8)) (inoffset : Nat)
    (linesizemax : UInt32) : Prop :=
  ∀ (σ : Type) (e : Env) (ic : Iconv σ) (cd : σ) (outhead : List UInt8) (s : Sys) (r : FileResult),
    e.file = chars.flatten → s.Fresh →
    ConvFileReturnsFrom host e ic cd inoffset outhead linesizemax s r → DroppedOk r.sys.log →
    EndsBetween chars (bomLength bom + inoffset) r.sys.log ∧
      (ic.AcceptsPieces host bom (chars.dropText (bomLength bom + inoffset))
        (lineSize linesizemax) → r.ret ≠ convdErrIconv)

section Whole

variable {host : Endian} {bom : UcsBom} {chars : List (List UInt8)} {inoffset : Nat}
  {linesizemax : UInt32}

theorem le_lineSize (h : 8 ≤ linesizemax.toNat) : 8 ≤ (lineSize linesizemax).toNat := by
  rw [lineSize]
  split
  · decide
  · exact h

/-- Lines between cuts that divide no character are whole characters. -/
theorem Lines.whole_of_mem {L : Nat} (hL : L < 2 ^ 32) {lines : List (List UInt8)}
    {left : List UInt8} (h : Lines host bom L chars.flatten lines left)
    (hends : ∀ e, lines.EndsAt e → ¬ chars.Inside e) {line : List UInt8} (hmem : line ∈ lines) :
    ∃ piece, piece <:+: chars ∧ piece.flatten ≠ [] ∧ piece.flatten.length ≤ L ∧
      line = forHost host bom piece.flatten := by
  obtain ⟨s, hplaced⟩ := List.exists_placed_of_mem hmem
  obtain ⟨hne, hle, hend, heq⟩ := h.placed_eq hL hplaced
  have hfirst : ¬ chars.Inside s := by
    rcases hplaced.zero_or_endsAt with rfl | hs
    · exact List.not_inside_zero
    · exact hends s hs
  have hlast := hends (s + line.length) ⟨s, line, hplaced, rfl⟩
  obtain ⟨piece, hpiece, hflat⟩ := List.exists_infix_of_not_inside hfirst hlast hend
  rw [← hflat] at heq
  have hlen : piece.flatten.length = line.length := by
    rw [hflat, List.length_take, List.length_drop]
    omega
  refine ⟨piece, hpiece, ?_, hlen ▸ hle, heq⟩
  exact List.length_pos_iff.mp (hlen ▸ List.length_pos_iff.mpr hne)

/-- A file is kept whole exactly when no cut divides a character. -/
theorem keepsCharacters_iff_cuts (hlt : chars.flatten.length < 2 ^ 63)
    (hbom : StartsWithBom chars.flatten bom) (hin : bomLength bom + inoffset < 2 ^ 63)
    (h8 : 8 ≤ linesizemax.toNat) (hlines : ∃ lines left, Lines host bom
      (lineSize linesizemax).toNat (chars.flatten.drop (bomLength bom + inoffset)) lines left) :
    KeepsCharacters host bom chars inoffset linesizemax ↔ bom = .utf8BomAsk ∨
      ∀ e, CutAt bom (lineSize linesizemax).toNat
        (chars.flatten.drop (bomLength bom + inoffset)) e →
          ¬ (chars.dropText (bomLength bom + inoffset)).Inside e := by
  have h4 : 4 ≤ (lineSize linesizemax).toNat := Nat.le_trans (by decide) (le_lineSize h8)
  have hL := (lineSize linesizemax).toNat_lt
  obtain ⟨lines, left, hlines⟩ := hlines
  have hends := hlines.endsAt_iff h4 hL
  constructor
  · intro hkeeps
    by_cases hask : bom = .utf8BomAsk
    · exact .inl hask
    · refine .inr fun e hcut hinside => ?_
      obtain ⟨env, r, hfile, hr, hdropped, hhanded⟩ :=
        exists_call_handed hlt hbom hask hin hlines
      obtain ⟨hbetween, -⟩ := hkeeps _ _ _ _ _ _ r hfile Sys.fresh_init hr hdropped
      rw [EndsBetween, hhanded] at hbetween
      exact hbetween e ((hends e).mpr hcut) (List.inside_dropText_iff.mp hinside).2
  · rintro hcuts σ e ic cd outhead s r hfile h₀ hr hdropped
    rw [← hfile] at hbom
    rcases hcuts with rfl | hcuts
    · obtain ⟨hnone, hret⟩ := hr.of_ask h₀ hbom hdropped
      refine ⟨?_, fun _ => hret⟩
      rw [EndsBetween, hnone]
      exact fun e hend => absurd hend List.not_endsAt_nil
    · have hbetween : ∀ e, lines.EndsAt e →
          ¬ (chars.dropText (bomLength bom + inoffset)).Inside e :=
        fun e hend => hcuts e ((hends e).mp hend)
      have hrest := hlines
      rw [← List.flatten_dropText] at hrest
      rw [← hfile] at hlines
      obtain ⟨hpart, hiconv⟩ := hr.along h₀ hbom hin hdropped hlines
      constructor
      · rintro e ⟨s, chunk, hplaced, rfl⟩ hinside
        have hend : lines.EndsAt (s + chunk.length) := ⟨s, chunk, hplaced.mono hpart, rfl⟩
        exact hbetween _ hend (List.inside_dropText_iff.mpr ⟨((hends _).mp hend).pos, hinside⟩)
      · intro haccepts hret
        obtain ⟨input, hmem, cd', hnone⟩ := hiconv hret
        obtain ⟨piece, hpiece, hne, hle, rfl⟩ := hrest.whole_of_mem hL hbetween hmem
        have hsome := haccepts cd' piece hpiece hne hle
        rw [hnone] at hsome
        cases hsome

end Whole

/-! ## Cuts inside a character -/

/-- All bytes have the same top bit. -/
def Unmixed (bytes : List UInt8) : Prop := ∀ a ∈ bytes, ∀ b ∈ bytes, topBit a = topBit b

section Cuts

variable {L s : Nat} {bytes : List UInt8} {chars : List (List UInt8)}

/-- Bytes that agree with their neighbours agree. -/
theorem unmixed_of_neighbours
    (h : ∀ i, 0 < i → i < bytes.length → (bytes[i - 1]?).map topBit = (bytes[i]?).map topBit) :
    Unmixed bytes := by
  have hfirst : ∀ i, i < bytes.length → (bytes[i]?).map topBit = (bytes[0]?).map topBit := by
    intro i
    induction i with
    | zero => exact fun _ => rfl
    | succ i ih =>
        intro hi
        exact (h (i + 1) (Nat.succ_pos i) hi).symm.trans (ih (Nat.lt_of_succ_lt hi))
  intro a ha b hb
  obtain ⟨i, hi⟩ := List.mem_iff_getElem?.mp ha
  obtain ⟨j, hj⟩ := List.mem_iff_getElem?.mp hb
  obtain ⟨hi', -⟩ := List.getElem?_eq_some_iff.mp hi
  obtain ⟨hj', -⟩ := List.getElem?_eq_some_iff.mp hj
  have heq := (hfirst i hi').trans (hfirst j hj').symm
  rw [hi, hj] at heq
  exact Option.some.inj heq

theorem Unmixed.neighbours (h : Unmixed bytes) {i j : Nat} (hi : i < bytes.length)
    (hj : j < bytes.length) : (bytes[i]?).map topBit = (bytes[j]?).map topBit := by
  rw [List.getElem?_eq_getElem hi, List.getElem?_eq_getElem hj]
  exact congrArg some (h _ (List.getElem_mem hi) _ (List.getElem_mem hj))

/-- The cuts of a text leave a character of several bytes whole exactly when its bytes have
one top bit, and less is read at a time than an `int` can count. -/
theorem textCut_whole_iff (hplaced : chars.Placed s bytes) :
    (∀ i, 0 < i → i < bytes.length → ¬ TextCut L chars.flatten (s + i)) ↔
      (2 ≤ bytes.length → Unmixed bytes ∧ min L (chars.flatten.length - s) < 2 ^ 31) := by
  have hend := hplaced.end_le
  have hcut : ∀ i, 0 < i → i < bytes.length → (TextCut L chars.flatten (s + i) ↔
      (bytes[i - 1]?).map topBit ≠ (bytes[i]?).map topBit ∨
        2 ^ 31 ≤ min L (chars.flatten.length - (s + (i - 1)))) := by
    intro i h0 hi
    have hprev : s + i - 1 = s + (i - 1) := by omega
    rw [TextCut, hprev, hplaced.getElem? hi, hplaced.getElem? (by omega)]
    exact ⟨fun h => h.2.2, fun h => ⟨by omega, by omega, h⟩⟩
  constructor
  · intro h hlen
    have hnone : ∀ i, 0 < i → i < bytes.length →
        (bytes[i - 1]?).map topBit = (bytes[i]?).map topBit ∧
          ¬ 2 ^ 31 ≤ min L (chars.flatten.length - (s + (i - 1))) := by
      intro i h0 hi
      have hno := h i h0 hi
      rw [hcut i h0 hi, not_or, not_not] at hno
      exact hno
    refine ⟨unmixed_of_neighbours fun i h0 hi => (hnone i h0 hi).1, ?_⟩
    exact Nat.lt_of_not_le (hnone 1 Nat.one_pos hlen).2
  · intro h i h0 hi hdivides
    obtain ⟨hsame, hint⟩ := h (by omega)
    rcases (hcut i h0 hi).mp hdivides with hne | hbig
    · exact hne (hsame.neighbours (by omega) hi)
    · omega

theorem UnitsCut.dvd {w n e : Nat} (h : UnitsCut w L n e) : w ∣ e := by
  obtain ⟨-, -, -, hdvd | rfl⟩ := h
  · exact Nat.dvd_trans (Nat.dvd_mul_left w (L / w)) hdvd
  · exact Nat.dvd_mul_left w (n / w)

theorem two_dvd_length_flatten : ∀ {cs : List (List UInt8)}, (∀ char ∈ cs, 2 ∣ char.length) →
    2 ∣ cs.flatten.length
  | [], _ => Nat.dvd_zero 2
  | char :: cs, h => by
      rw [List.flatten_cons, List.length_append]
      exact Nat.dvd_add (h char List.mem_cons_self)
        (two_dvd_length_flatten fun char hmem => h char (List.mem_cons_of_mem _ hmem))

theorem topBit_of_le {b : UInt8} (h : 0x80 ≤ b.toNat) : topBit b = 1 := by
  have hlt := b.toNat_lt
  have hbit : b.toNat >>> 7 = 1 := by
    rw [Nat.shiftRight_eq_div_pow]
    omega
  rw [topBit, boCheckBit, hbit]
  rfl

/-- No byte below 80 is in a character of UTF-8 or GB2312 that has several, nor in the end
of one. -/
theorem unmixed_of_bytes {bytes char : List UInt8} (hend : bytes <:+ char)
    (hlen : 2 ≤ bytes.length)
    (h : (∃ a, char = [a] ∧ a.toNat < 0x80) ∨ ∀ b ∈ char, 0x80 ≤ b.toNat ∧ b.toNat < 0xFF) :
    Unmixed bytes := by
  rcases h with ⟨a, rfl, -⟩ | hall
  · exact absurd (Nat.le_trans hlen hend.length_le) (Nat.not_succ_le_self 1)
  · intro a ha b hb
    have hbit := fun {c : UInt8} (hc : c ∈ bytes) => topBit_of_le (hall c (hend.subset hc)).1
    exact (hbit ha).trans (hbit hb).symm

end Cuts

/-! ## The call -/

/-- The condition under which a character is kept whole that begins `s` bytes behind the
place where reading begins, `n` bytes before the end of the file, in lines of `L` bytes. -/
def Encoding.Undivided (bom : UcsBom) (L n s : Nat) (char : List UInt8) : Encoding → Prop
  | .utf8 | .gb2312 => 2 ≤ char.length → min L (n - s) < 2 ^ 31
  | .gbk | .big5 | .gb18030 => 2 ≤ char.length → Unmixed char ∧ min L (n - s) < 2 ^ 31
  | .utf16 _ => ∀ i, 0 < i → i < char.length → ¬ UnitsCut (unitWidth bom) L n (s + i)

section Call

variable {enc : Encoding} {host : Endian} {bom : UcsBom} {inoffset L start s : Nat}
  {linesizemax : UInt32} {char : List UInt8}

/-- Where reading begins between two characters, only the middle of a surrogate pair counts. -/
theorem EncodedFile.undivided_utf16_iff {order : Endian} {n : Nat}
    (t : EncodedFile (.utf16 order)) (hbom : StartsWithBom t.file bom)
    (hstart : ¬ t.chars.Inside start) (hplaced : (t.chars.dropText start).Placed s char) :
    (Encoding.utf16 order).Undivided bom L n s char ↔
      (char.length = 4 → ¬ UnitsCut (unitWidth bom) L n (s + 2)) := by
  obtain ⟨-, hw⟩ := t.units hbom
  have hlen : ∀ c ∈ t.chars.dropText start, c.length = 2 ∨ c.length = 4 :=
    fun c hc => utf16Char_length (t.valid c (List.mem_of_mem_dropText hstart hc))
  have hchar := hlen char hplaced.mem
  constructor
  · intro h hfour
    exact h 2 Nat.two_pos (by omega)
  · intro h i h0 hi hcut
    -- cuts and characters both lie at even places
    have heven : 2 ∣ s := by
      obtain ⟨before, after, hsplit, rfl⟩ := hplaced
      have hbefore : ∀ c ∈ before, c ∈ t.chars.dropText start :=
        fun c hc => hsplit ▸ List.mem_append_left _ hc
      refine two_dvd_length_flatten fun c hc => ?_
      rcases hlen c (hbefore c hc) with h2 | h4
      · exact ⟨1, h2⟩
      · exact ⟨2, h4⟩
    have hdvd := Nat.dvd_trans hw hcut.dvd
    obtain rfl : i = 2 := by omega
    exact h (by omega) hcut

theorem EncodedFile.undivided_iff (t : EncodedFile enc) (hbom : StartsWithBom t.file bom)
    (hplaced : (t.chars.dropText start).Placed s char) :
    (∀ i, 0 < i → i < char.length → ¬ CutAt bom L (t.file.drop start) (s + i)) ↔
      enc.Undivided bom L (t.file.drop start).length s char := by
  obtain ⟨whole, hmem, hend⟩ := List.suffix_of_mem_dropText hplaced.mem
  have hchar := t.valid whole hmem
  have htext : enc.isBytes = true →
      ((∀ i, 0 < i → i < char.length → ¬ CutAt bom L (t.file.drop start) (s + i)) ↔
        (2 ≤ char.length → Unmixed char ∧ min L ((t.file.drop start).length - s) < 2 ^ 31)) := by
    intro hbytes
    simp only [CutAt, t.isText hbytes hbom, if_true, EncodedFile.file, ← List.flatten_dropText]
    exact textCut_whole_iff hplaced
  cases enc with
  | utf8 =>
      rw [htext rfl]
      exact forall_congr' fun hlen =>
        and_iff_right (unmixed_of_bytes hend hlen (utf8Char_bytes hchar))
  | gb2312 =>
      rw [htext rfl]
      exact forall_congr' fun hlen =>
        and_iff_right (unmixed_of_bytes hend hlen (gb2312Char_bytes hchar))
  | gbk => exact htext rfl
  | big5 => exact htext rfl
  | gb18030 => exact htext rfl
  | utf16 order =>
      obtain ⟨hu, -⟩ := t.units hbom
      simp only [CutAt, hu, Bool.false_eq_true, if_false, Encoding.Undivided]

/-- The characters of a file are kept whole exactly when the cuts spare each of them. -/
theorem convdConvFile_keepsCharacters_iff (t : EncodedFile enc) (hbom : StartsWithBom t.file bom)
    (hin : bomLength bom + inoffset < 2 ^ 63) (h8 : 8 ≤ linesizemax.toNat)
    (hlines : ∃ lines left, Lines host bom (lineSize linesizemax).toNat
      (t.file.drop (bomLength bom + inoffset)) lines left) :
    KeepsCharacters host bom t.chars inoffset linesizemax ↔ bom = .utf8BomAsk ∨
      ∀ s char, (t.chars.dropText (bomLength bom + inoffset)).Placed s char →
        enc.Undivided bom (lineSize linesizemax).toNat
          (t.file.drop (bomLength bom + inoffset)).length s char := by
  rw [keepsCharacters_iff_cuts t.length_lt hbom hin h8 hlines, List.forall_not_inside_iff]
  exact or_congr_right (forall₂_congr fun s char => forall_congr' fun hplaced =>
    t.undivided_iff hbom hplaced)

end Call

/-- The characters é and a in UTF-8. -/
def eacuteFile : EncodedFile .utf8 where
  chars := [[0xC3, 0xA9], [0x61]]
  valid := by decide
  marked := trivial
  length_lt := by decide

/-- They are kept whole, whatever the converter does. -/
theorem convdConvFile_keepsCharacters_iff_eacute :
    KeepsCharacters .little .noneBom eacuteFile.chars 0 8 := by
  have hlines : ∃ lines left, Lines .little .noneBom (lineSize 8).toNat
      (eacuteFile.file.drop (bomLength .noneBom + 0)) lines left :=
    (exists_lines_iff (by decide)).mpr fun _ _ => by decide
  refine (@convdConvFile_keepsCharacters_iff .utf8 .little .noneBom 0 8 eacuteFile (by decide)
    (by decide) (by decide) hlines).mpr (.inr fun s char _ _ => ?_)
  exact Nat.lt_of_le_of_lt (Nat.min_le_left _ _) (by decide)

/-- A character of GBK whose second byte is the letter `@`. -/
def gbkFile : EncodedFile .gbk where
  chars := [[0x81, 0x40]]
  valid := by decide
  marked := trivial
  length_lt := by decide

/-- It is handed over in two chunks of a byte each. -/
theorem convdConvFile_divides_gbk :
    ¬ ∀ (enc : Encoding) (t : EncodedFile enc) (host : Endian) (e : Env) (ic : Iconv Unit)
      (inoffset : Nat) (outhead : List UInt8) (linesizemax : UInt32) (bom : UcsBom)
      (r : FileResult), e.file = t.file → StartsWithBom t.file bom → 8 ≤ linesizemax.toNat →
      (∃ lines left, Lines host bom (lineSize linesizemax).toNat
        (t.file.drop (bomLength bom + inoffset)) lines left) →
      ¬ t.chars.Inside (bomLength bom + inoffset) →
      ConvFileReturns host e ic () inoffset outhead linesizemax r → AllOk r.sys.log →
      EndsBetween t.chars (bomLength bom + inoffset) r.sys.log := by
  intro hends
  have hcall : (convdConvFile .little (.bytewise [0x81, 0x40] (by decide) fun _ => false)
      (.ofFun fun _ => some []) 4 () 0 [] 8 Sys.init).any (fun r => decide (AllOk r.sys.log) &&
        handed r.sys.log == [[0x81], [0x40]]) = true := by decide +kernel
  obtain ⟨r, hr, hand⟩ := (Option.any_eq_true _ _).mp hcall
  obtain ⟨hok, hhanded⟩ := (Bool.and_eq_true _ _).mp hand
  have hlines : ∃ lines left, Lines .little .noneBom (lineSize 8).toNat
      (gbkFile.file.drop (bomLength .noneBom + 0)) lines left :=
    (exists_lines_iff (by decide)).mpr fun _ _ => by decide
  have hend : (handed r.sys.log).EndsAt 1 := by
    rw [beq_iff_eq.mp hhanded]
    exact ⟨0, [0x81], ⟨[], [[0x40]], rfl, rfl⟩, rfl⟩
  refine hends .gbk gbkFile .little (.bytewise [0x81, 0x40] (by decide) fun _ => false)
    (.ofFun fun _ => some []) 0 [] 8 .noneBom r rfl (by decide) (by decide) hlines
    List.not_inside_zero ⟨4, hr⟩ (of_decide_eq_true hok) 1 hend ?_
  exact ⟨0, [0x81, 0x40], ⟨[], [], rfl, rfl⟩, by decide, by decide⟩

/-! ## Documents -/

/-- What holds of the calls on a file holds of the one `convd_conv_xmlfile` makes, which
skips the head. -/
theorem ConvXmlfileReturns.whole {host : Endian} {e : Env} {ic : Iconv σ} {cd : σ}
    {tocode : List UInt8} {linesizemax : UInt32} {r : FileResult} {n : Nat} {bom : UcsBom}
    {chars : List (List UInt8)} (hkeeps : KeepsCharacters host bom chars n linesizemax)
    (hfile : e.file = chars.flatten) (hhead : FindsHead host e n)
    (h : ConvXmlfileReturns host e ic cd tocode linesizemax r) (hdropped : DroppedOk r.sys.log) :
    EndsBetween chars (bomLength bom + n) r.sys.log ∧
      (ic.AcceptsPieces host bom (chars.dropText (bomLength bom + n)) (lineSize linesizemax) →
        r.ret ≠ convdErrIconv) := by
  obtain ⟨-, s, outhead, hfresh, hcall⟩ := h.convFile hhead
  exact hkeeps σ e ic cd outhead s r hfile hfresh hcall hdropped

end Convd
