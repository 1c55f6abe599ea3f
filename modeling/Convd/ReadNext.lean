/-
# `Convd.ReadNext` — the position object, and reading a line

`ucs_file_read_open` looks for a mark and allocates the position object;
`ucs_file_read_next` reads a full line buffer, keeps a line of it, and seeks the file
back to where the line ends.

`readNext_outcome` is all that a call can come to, in terms of `nextLine` of the
file from the current position on:

    reads          next line     seek to `offset`     returns
    one fails      —             —                    `CONVD_ERR_FILE`
    all well       finished      —                    `CONV_FINISHED`
    all well       insufficient  —                    `CONVD_ERR_INSUFF`, the file read ahead
    all well       a line        well                 its length
    all well       a line        fails                `CONVD_ERR_FILE`
    all well       a line        fails, to −1         its length: −1 is what was asked for
-/
import Convd.File
import Convd.Line

namespace Convd

/-! ## The code -/

/-- `conv_position_t`.  `linebytes` is the part of the allocation asked for beyond the
struct; `inputbuf` is `linebuf`, `outputbuf` is `linebuf + linesize`.  That `linebuf` ends there
is left to `convdConvFileChecked`: where five lines are less than 4 GiB no access gets so far. -/
structure ConvPosition where
  bom : UcsBom
  offset : Int
  linesize : UInt32
  linebytes : Nat
  linebuf : Mem UInt8

/-- `if (linesizemax == -1) linesizemax = CONV_LINE_MAXSIZE;` -/
def lineSize (linesizemax : UInt32) : UInt32 :=
  if linesizemax = 0xFFFFFFFF then convLineMaxsize else linesizemax

/-- `ucs_file_read_open`: the position object, or the error code. -/
def ucsFileReadOpen (e : Env) (linesizemax : UInt32) (s : Sys) : Except Int ConvPosition × Sys :=
  match fileOpenRead e s with
  | (false, s) => (.error convdErrFile, s)
  | (true, s) =>
      let (offcb, bytes, s) := fileReadbytes e .header 4 s
      -- the result is taken for a size unseen; the array starts out as four zeros
      let headbuf : ConvBuf := ⟨toSizeT offcb, Mem.ofList 0 bytes⟩
      let bom := ucsTextDetectBom headbuf
      if bom = .utf8BomAsk then (.error convdErrEncoding, fileClose .closeText s)
      else
        let offcb := bomLength bom
        let (target, s) := fileSeekSet e offcb s
        if target ≠ offcb then (.error convdErrFile, fileClose .closeText s)
        else
          let linesize := lineSize linesizemax
          let linebytes := (5 * linesize).toNat
          (.ok ⟨bom, offcb, linesize, linebytes, e.heap⟩,
            (s.did (.alloc linebytes) true).did .usePos true)

/-- `while (offcb <= rdlen - w)`: the units of the buffer, in place. -/
def swapLoop (convert : List UInt8 → List UInt8) (w : Nat) (rdlen : Int) :
    Nat → Nat → Mem UInt8 → Nat × Mem UInt8
  | 0, offcb, m => (offcb, m)
  | fuel + 1, offcb, m =>
      if (offcb : Int) ≤ rdlen - w then
        swapLoop convert w rdlen fuel (offcb + w) (m.store offcb (convert (m.load offcb w)))
      else (offcb, m)

/-- `while (offcb < rdlen)`: to the first byte with another top bit. -/
def sameBitLoop (bitflag : Nat) (rdlen : Int) (m : Mem UInt8) : Nat → Nat → Nat
  | 0, offcb => offcb
  | fuel + 1, offcb =>
      if (offcb : Int) < rdlen then
        if boCheckBit (m offcb).toNat 7 ≠ bitflag then offcb
        else sameBitLoop bitflag rdlen m fuel (offcb + 1)
      else offcb

/-- The `switch` of `ucs_file_read_next`: the line's length and the buffer.  A turn of
a loop advances by a byte at least, so `rdlen` is fuel enough. -/
def cutLine (host : Endian) (bom : UcsBom) (rdlen : Int) (m : Mem UInt8) : Nat × Mem UInt8 :=
  let fuel := rdlen.toNat
  match bom with
  | .ucs2beBom => swapLoop (boBytesBetoh host) 2 rdlen fuel 0 m
  | .ucs2leBom => swapLoop (boBytesLetoh host) 2 rdlen fuel 0 m
  | .ucs4beBom => swapLoop (boBytesBetoh host) 4 rdlen fuel 0 m
  | .ucs4leBom => swapLoop (boBytesLetoh host) 4 rdlen fuel 0 m
  | .utf8Bom | .noneBom | .utf8BomAsk =>
      (sameBitLoop (boCheckBit (m 0).toNat 7) rdlen m fuel 1, m)

/-- `ucs_file_read_next` -/
def ucsFileReadNext (host : Endian) (e : Env) (cpos : ConvPosition) (s : Sys) :
    Int × ConvPosition × Sys :=
  let (rdlen, bytes, s) := fileReadbytes e .linebuf cpos.linesize.toNat (s.did .usePos true)
  let cpos := { cpos with linebuf := cpos.linebuf.store 0 bytes }
  if rdlen = -1 then (convdErrFile, cpos, s)
  else if rdlen = 0 then (convFinished, cpos, s)
  else
    let (offcb, linebuf) := cutLine host cpos.bom rdlen cpos.linebuf
    let cpos := { cpos with linebuf := linebuf }
    if isText cpos.bom ∧ offcb = cpos.linesize.toNat then (convdErrInsuff, cpos, s)
    else
      let cpos := { cpos with offset := toSb8 (cpos.offset + offcb) }
      let (target, s) := fileSeekSet e cpos.offset s
      if target ≠ cpos.offset then (convdErrFile, cpos, s) else (offcb, cpos, s)

/-- `ucs_file_read_close` -/
def ucsFileReadClose (s : Sys) : Sys :=
  (fileClose .closeText (s.did .usePos true)).did .free true

theorem lineSize_ne (linesizemax : UInt32) : lineSize linesizemax ≠ 0xFFFFFFFF := by
  rw [lineSize]
  split
  · decide
  · assumption

theorem lineSize_of_ne {linesizemax : UInt32} (h : linesizemax ≠ 0xFFFFFFFF) :
    lineSize linesizemax = linesizemax := if_neg h

/-! ## Opening -/

/-- Every way opening can go.  A failed read of the header goes unnoticed, and then
anything can be taken for the mark. -/
inductive OpenOutcome (e : Env) (linesizemax : UInt32) (s : Sys) :
    Except Int ConvPosition × Sys → Prop where
  | openFails : e.fails s.tick = true →
      OpenOutcome e linesizemax s (.error convdErrFile, s.did .openText false)
  | encoding (pos t : Nat) (evs : List Event) : Transfers (.read .header) evs →
      e.file = [0xEF, 0xBB] →
      OpenOutcome e linesizemax s (.error convdErrEncoding, { s with
        tick := t, pos := pos,
        log := s.log ++ .call .openText true :: (evs ++ [.call .closeText true]) })
  | seekFails (bom : UcsBom) (pos t : Nat) (evs : List Event) :
      Transfers (.read .header) evs ∨ TransferFails (.read .header) evs →
      (∃ t, e.fails t = true) →
      OpenOutcome e linesizemax s (.error convdErrFile, { s with
        tick := t, pos := pos,
        log := s.log ++ .call .openText true ::
          (evs ++ [.call (.seekSet (bomLength bom)) false, .call .closeText true]) })
  | opened (bom : UcsBom) (t : Nat) (evs : List Event) :
      Transfers (.read .header) evs ∧ StartsWithBom e.file bom ∨
        TransferFails (.read .header) evs ∧ (∃ t, e.fails t = true) →
      bom ≠ .utf8BomAsk →
      OpenOutcome e linesizemax s
        (.ok ⟨bom, bomLength bom, lineSize linesizemax, (5 * lineSize linesizemax).toNat, e.heap⟩,
          { s with tick := t, pos := bomLength bom,
                   log := s.log ++ .call .openText true ::
                     (evs ++ [.call (.seekSet (bomLength bom)) true,
                       .call (.alloc (5 * lineSize linesizemax).toNat) true,
                       .call .usePos true]) })

/-- What was read of the header shows what the file starts with. -/
theorem header_shows (file : List UInt8) :
    ConvBuf.Shows ⟨toSizeT (toInt (file.take 4).length), Mem.ofList 0 (file.take 4)⟩ file := by
  have hle : (file.take 4).length ≤ 4 := List.length_take_le _ _
  have hlen : toSizeT (toInt (file.take 4).length) = (file.take 4).length := by
    rw [toInt_of_lt (by omega), toSizeT_of_lt (by omega)]
  refine ⟨?_, fun i hi c hc => ?_⟩
  · simp only [hlen]
    rw [List.length_take]
    omega
  · show ((file.take 4)[i]?).getD 0 = c
    rw [List.getElem?_take_of_lt hi, hc]
    rfl

theorem header_starts (file : List UInt8) : ∃ bom, ucsTextDetectBom
    ⟨toSizeT (toInt (file.take 4).length), Mem.ofList 0 (file.take 4)⟩ = bom ∧
      StartsWithBom file bom := by
  have hshows := header_shows file
  generalize (⟨toSizeT (toInt (file.take 4).length), Mem.ofList 0 (file.take 4)⟩ : ConvBuf) = x
    at hshows ⊢
  exact ⟨_, rfl, startsWithBom_detect hshows⟩

/-- Only a header of two bytes asks for a third. -/
theorem blen_of_utf8BomAsk {x : ConvBuf} (h : ucsTextDetectBom x = .utf8BomAsk) : x.blen = 2 := by
  by_contra hne
  rw [ucsTextDetectBom] at h
  split_ifs at h

/-- Opening, once the header was read one way or the other. -/
theorem openOutcome_of_header {e : Env} {linesizemax : UInt32} {s : Sys} {offcb : Int}
    {bytes : List UInt8} {pos t : Nat} {evs : List Event} {bom : UcsBom}
    (hopen : fileOpenRead e s = (true, { s.did .openText true with pos := 0 }))
    (hread : fileReadbytes e .header 4 { s.did .openText true with pos := 0 }
      = (offcb, bytes, { s with tick := t, pos := pos,
                                log := s.log ++ .call .openText true :: evs }))
    (hdetect : ucsTextDetectBom ⟨toSizeT offcb, Mem.ofList 0 bytes⟩ = bom)
    (hask : bom = .utf8BomAsk → Transfers (.read .header) evs ∧ e.file = [0xEF, 0xBB])
    (hbom : Transfers (.read .header) evs ∧ StartsWithBom e.file bom ∨
      TransferFails (.read .header) evs ∧ (∃ t, e.fails t = true)) :
    OpenOutcome e linesizemax s (ucsFileReadOpen e linesizemax s) := by
  have hcat : ∀ evs' evs'', s.log ++ .call .openText true :: evs' ++ evs''
      = s.log ++ .call .openText true :: (evs' ++ evs'') := fun _ _ => List.append_assoc _ _ _
  simp only [ucsFileReadOpen, hopen, hread, hdetect]
  by_cases hisask : bom = .utf8BomAsk
  · obtain ⟨hevs, hfile⟩ := hask hisask
    rw [if_pos hisask]
    simp only [fileClose, Sys.did, hcat]
    exact .encoding _ _ _ hevs hfile
  · rw [if_neg hisask, fileSeekSet]
    have hle := bomLength_le bom
    rcases e.seek_cases (.seekSet (bomLength bom)) (bomLength bom)
      { s with tick := t, pos := pos, log := s.log ++ .call .openText true :: evs } with
      ⟨-, -, hseek⟩ | ⟨hfault, hseek⟩
    · rw [hseek, if_neg (not_not.mpr rfl)]
      simp only [Sys.did, hcat, Int.toNat_natCast, List.append_assoc, List.cons_append,
        List.nil_append]
      exact .opened _ _ _ hbom hisask
    · have hfault' : ∃ t, e.fails t = true := by
        rcases hfault with hfail | hneg | hbig
        · exact ⟨_, hfail⟩
        · omega
        · omega
      rw [hseek, if_pos (by omega)]
      simp only [fileClose, Sys.did, hcat, List.append_assoc, List.cons_append, List.nil_append]
      exact .seekFails _ _ _ _ (hbom.imp And.left And.left) hfault'

theorem ucsFileReadOpen_outcome (e : Env) (linesizemax : UInt32) (s : Sys) :
    OpenOutcome e linesizemax s (ucsFileReadOpen e linesizemax s) := by
  rcases hfail : e.fails s.tick with _ | _
  · have hopen : fileOpenRead e s = (true, { s.did .openText true with pos := 0 }) := by
      rw [fileOpenRead, hfail]
      rfl
    have hcat : ∀ evs, s.log ++ [.call .openText true] ++ evs
        = s.log ++ .call .openText true :: evs := fun _ => List.append_assoc _ _ _
    have hstart : e.file.drop ({ s.did .openText true with pos := 0 } : Sys).pos = e.file :=
      List.drop_zero
    rcases fileReadbytes_cases e .header 4 { s.did .openText true with pos := 0 } hstart with
      ⟨t, evs, hevs, hread⟩ | ⟨k, t, evs, hevs, hfault, hread⟩
    · have hread' : fileReadbytes e .header 4 { s.did .openText true with pos := 0 }
          = (toInt (e.file.take 4).length, e.file.take 4,
              { s with tick := t, pos := 0 + (e.file.take 4).length,
                       log := s.log ++ .call .openText true :: evs }) := by
        rw [hread, ← hcat]
        rfl
      obtain ⟨bom, hdetect, hstarts⟩ := header_starts e.file
      refine openOutcome_of_header hopen hread' hdetect ?_ (.inl ⟨hevs, hstarts⟩)
      intro hask
      rw [hask] at hstarts
      exact ⟨hevs, hstarts⟩
    · have hread' : fileReadbytes e .header 4 { s.did .openText true with pos := 0 }
          = (-1, e.file.take k, { s with tick := t, pos := 0 + (e.file.take k).length,
                                         log := s.log ++ .call .openText true :: evs }) := by
        rw [hread, ← hcat]
        rfl
      have hsize : toSizeT (-1) ≠ 2 := by decide
      refine openOutcome_of_header hopen hread' rfl ?_ (.inr ⟨hevs, hfault⟩)
      intro hask
      exact absurd (blen_of_utf8BomAsk hask) hsize
  · have hopen : fileOpenRead e s = (false, s.did .openText false) := by
      rw [fileOpenRead, if_pos hfail]
    simp only [ucsFileReadOpen, hopen]
    exact .openFails hfail

/-- The sizes an opened position object has. -/
theorem OpenOutcome.sizes {e : Env} {linesizemax : UInt32} {s s' : Sys} {cpos : ConvPosition}
    (h : OpenOutcome e linesizemax s (.ok cpos, s')) :
    cpos.linesize = lineSize linesizemax ∧ cpos.linebytes = (5 * lineSize linesizemax).toNat := by
  cases h with
  | opened bom t evs _ _ => exact ⟨rfl, rfl⟩

theorem OpenOutcome.linesize_ne {e : Env} {linesizemax : UInt32} {s s' : Sys}
    {cpos : ConvPosition} (h : OpenOutcome e linesizemax s (.ok cpos, s')) :
    cpos.linesize ≠ 0xFFFFFFFF :=
  h.sizes.1 ▸ lineSize_ne linesizemax

/-! ## The loops -/

theorem sameBitLoop_eq {bitflag n : Nat} {m : Mem UInt8} : ∀ {fuel offcb : Nat},
    n ≤ offcb + fuel →
    sameBitLoop bitflag n m fuel offcb
      = offcb + ((m.load offcb (n - offcb)).takeWhile fun b => topBit b == bitflag).length
  | 0, offcb, h => by
      have hnone : n - offcb = 0 := by omega
      rw [sameBitLoop, hnone, Mem.load_zero, List.takeWhile_nil, List.length_nil, Nat.add_zero]
  | fuel + 1, offcb, h => by
      rw [sameBitLoop]
      by_cases hlt : (offcb : Int) < n
      · obtain ⟨k, hk⟩ : ∃ k, n - offcb = k + 1 := ⟨n - offcb - 1, by omega⟩
        have hk' : n - (offcb + 1) = k := by omega
        rw [if_pos hlt, hk, Mem.load]
        by_cases hbit : boCheckBit (m offcb).toNat 7 = bitflag
        · rw [if_neg (not_not.mpr hbit), sameBitLoop_eq (by omega), hk',
            List.takeWhile_cons_of_pos (by simpa [topBit] using hbit), List.length_cons]
          omega
        · rw [if_pos hbit, List.takeWhile_cons_of_neg (by simpa [topBit] using hbit),
            List.length_nil, Nat.add_zero]
      · have hnone : n - offcb = 0 := by omega
        rw [if_neg hlt, hnone, Mem.load_zero, List.takeWhile_nil, List.length_nil, Nat.add_zero]

/-- The buffer below `offcb` is done with. -/
theorem swapLoop_frame {convert : List UInt8 → List UInt8} {w : Nat} {rdlen : Int} {o n : Nat} :
    ∀ {fuel offcb : Nat} {m : Mem UInt8}, o + n ≤ offcb →
      (swapLoop convert w rdlen fuel offcb m).2.load o n = m.load o n
  | 0, _, _, _ => rfl
  | fuel + 1, offcb, m, h => by
      rw [swapLoop]
      split
      · exact (swapLoop_frame (Nat.le_add_right_of_le h)).trans
          (Mem.load_store_of_disjoint m (.inl h))
      · rfl

theorem swapLoop_eq {convert : List UInt8 → List UInt8} {w n : Nat} (hw : 0 < w)
    (hc : ∀ b, (convert b).length = b.length) : ∀ {fuel offcb : Nat} {m : Mem UInt8},
    n ≤ offcb + fuel → offcb ≤ n →
    (swapLoop convert w n fuel offcb m).1 = offcb + (n - offcb) / w * w ∧
      (swapLoop convert w n fuel offcb m).2.load offcb ((n - offcb) / w * w)
        = convertUnits convert w ((n - offcb) / w) (m.load offcb (n - offcb))
  | 0, offcb, m, h, hle => by
      have hnone : n - offcb = 0 := by omega
      rw [hnone, Nat.zero_div, Nat.zero_mul]
      exact ⟨rfl, rfl⟩
  | fuel + 1, offcb, m, h, hle => by
      rw [swapLoop]
      by_cases hroom : (offcb : Int) ≤ (n : Int) - w
      · obtain ⟨q, hq⟩ : ∃ q, (n - (offcb + w)) / w = q := ⟨_, rfl⟩
        have hsplit : n - offcb = n - (offcb + w) + w := by omega
        have hdiv : (n - offcb) / w = q + 1 := by rw [hsplit, Nat.add_div_right _ hw, hq]
        have hmul : (q + 1) * w = w + q * w := by rw [Nat.succ_mul, Nat.add_comm]
        have hlen : (convert (m.load offcb w)).length = w := by rw [hc, Mem.length_load]
        obtain ⟨hcb, hload⟩ := @swapLoop_eq convert w n hw hc fuel (offcb + w)
          (m.store offcb (convert (m.load offcb w))) (by omega) (by omega)
        have hunit : (m.store offcb (convert (m.load offcb w))).load offcb w
            = convert (m.load offcb w) := by
          have := Mem.load_store_self m offcb (convert (m.load offcb w))
          rwa [hlen] at this
        have hrest : (m.store offcb (convert (m.load offcb w))).load (offcb + w)
            (n - (offcb + w)) = m.load (offcb + w) (n - (offcb + w)) :=
          Mem.load_store_of_disjoint m (.inr (by rw [hlen]))
        rw [hq] at hcb hload
        rw [if_pos hroom, hdiv, hmul, convertUnits, Mem.take_load _ _ (by omega),
          Mem.drop_load _ _ (by omega)]
        refine ⟨by omega, ?_⟩
        rw [Mem.load_add, swapLoop_frame (Nat.le_refl _), hunit, hload, hrest, Nat.sub_sub]
      · have hlt : n - offcb < w := by omega
        rw [if_neg hroom, Nat.div_eq_of_lt hlt, Nat.zero_mul]
        exact ⟨rfl, rfl⟩

/-! ## The line -/

section CutLine

variable {host : Endian} {bom : UcsBom} {m : Mem UInt8}

theorem cutLine_text (ht : isText bom = true) {b : UInt8} {bs : List UInt8}
    (hm : m.load 0 (b :: bs).length = b :: bs) :
    cutLine host bom (toInt (b :: bs).length) m
      = ((List.runTail topBit b (bs.take ((toInt (b :: bs).length).toNat - 1))).length + 1, m) := by
  have hcons : m 0 :: m.load 1 bs.length = b :: bs := hm
  obtain ⟨h0, h1⟩ := List.cons.inj hcons
  have hcut : ∀ rdlen : Int, cutLine host bom rdlen m
      = (sameBitLoop (topBit b) rdlen m rdlen.toNat 1, m) := by
    intro rdlen
    rw [← h0]
    cases bom <;> first | exact absurd ht Bool.false_ne_true | rfl
  have hle := toInt_le (b :: bs).length
  rw [hcut]
  rw [List.length_cons] at hle ⊢
  generalize toInt (bs.length + 1) = rdlen at hle ⊢
  rcases Int.lt_or_le rdlen 0 with hneg | hpos
  · rw [Int.toNat_of_nonpos (Int.le_of_lt hneg)]
    rfl
  · obtain ⟨n, rfl⟩ := Int.eq_ofNat_of_zero_le hpos
    have hload : m.load 1 (n - 1) = bs.take (n - 1) := by
      rw [← h1, Mem.take_load _ _ (by omega)]
    rw [Int.toNat_natCast, sameBitLoop_eq (by omega), hload, Nat.add_comm]
    rfl

theorem cutLine_units (hu : isText bom = false) {bs : List UInt8} (hm : m.load 0 bs.length = bs) :
    (cutLine host bom (toInt bs.length) m).1
        = (toInt bs.length).toNat / unitWidth bom * unitWidth bom ∧
      (cutLine host bom (toInt bs.length) m).2.load 0
          ((toInt bs.length).toNat / unitWidth bom * unitWidth bom)
        = convertUnits (lineConvert host bom) (unitWidth bom)
            ((toInt bs.length).toNat / unitWidth bom) bs := by
  have hw := unitWidth_pos bom
  have hcut : ∀ rdlen : Int, cutLine host bom rdlen m
      = swapLoop (lineConvert host bom) (unitWidth bom) rdlen rdlen.toNat 0 m := by
    intro rdlen
    cases bom <;> first | exact absurd hu.symm Bool.false_ne_true | rfl
  have hle := toInt_le bs.length
  rw [hcut]
  generalize toInt bs.length = rdlen at hle ⊢
  rcases Int.lt_or_le rdlen 0 with hneg | hpos
  · rw [Int.toNat_of_nonpos (Int.le_of_lt hneg), Nat.zero_div, Nat.zero_mul]
    exact ⟨rfl, rfl⟩
  · obtain ⟨n, rfl⟩ := Int.eq_ofNat_of_zero_le hpos
    obtain ⟨hcb, hload⟩ := @swapLoop_eq (lineConvert host bom) (unitWidth bom) n hw
      (length_lineConvert host bom) n 0 m (Nat.le_add_left n 0) (Nat.zero_le n)
    have htake : m.load 0 n = bs.take n := by
      conv_rhs => rw [← hm]
      rw [Mem.take_load _ _ (by omega)]
    rw [Nat.zero_add, Nat.sub_zero] at hcb
    rw [Nat.sub_zero, htake, convertUnits_take _ _ _ (Nat.div_mul_le_self _ _)] at hload
    rw [Int.toNat_natCast]
    exact ⟨hcb, hload⟩

end CutLine

/-! ## A call of `ucs_file_read_next` -/

/-- Where a line of these bytes ends, as the code computes it. -/
def ConvPosition.stop (cpos : ConvPosition) (bytes : List UInt8) : Int :=
  toSb8 (cpos.offset + bytes.length)

/-- Every way a call can go.  `s.pos` is where the file is read, `cpos.offset` where
the code believes it to be. -/
inductive NextOutcome (host : Endian) (e : Env) (cpos : ConvPosition) (s : Sys) :
    Int × ConvPosition × Sys → Prop where
  | readFails (m : Mem UInt8) (k t : Nat) (evs : List Event) :
      TransferFails (.read .linebuf) evs → (∃ t, e.fails t = true) →
      NextOutcome host e cpos s (convdErrFile, { cpos with linebuf := m },
        { s with tick := t, pos := k, log := s.log ++ .call .usePos true :: evs })
  | finished (m : Mem UInt8) (t : Nat) (evs : List Event) : Transfers (.read .linebuf) evs →
      nextLine host cpos.bom cpos.linesize.toNat (e.file.drop s.pos) = .finished →
      NextOutcome host e cpos s (convFinished, { cpos with linebuf := m },
        { s with tick := t, log := s.log ++ .call .usePos true :: evs })
  | insuff (m : Mem UInt8) (t : Nat) (evs : List Event) : Transfers (.read .linebuf) evs →
      nextLine host cpos.bom cpos.linesize.toNat (e.file.drop s.pos) = .insuff →
      NextOutcome host e cpos s (convdErrInsuff, { cpos with linebuf := m },
        { s with tick := t,
                 pos := s.pos + ((e.file.drop s.pos).take cpos.linesize.toNat).length,
                 log := s.log ++ .call .usePos true :: evs })
  | line (bytes : List UInt8) (m : Mem UInt8) (t : Nat) (evs : List Event) :
      Transfers (.read .linebuf) evs →
      nextLine host cpos.bom cpos.linesize.toNat (e.file.drop s.pos) = .line bytes →
      m.load 0 bytes.length = bytes → 0 ≤ cpos.stop bytes →
      NextOutcome host e cpos s (bytes.length,
        { cpos with offset := cpos.stop bytes, linebuf := m },
        { s with tick := t, pos := (cpos.stop bytes).toNat,
                 log := s.log ++ .call .usePos true ::
                   (evs ++ [.call (.seekSet (cpos.stop bytes)) true]) })
  | seekFails (bytes : List UInt8) (m : Mem UInt8) (k t : Nat) (evs : List Event) :
      Transfers (.read .linebuf) evs →
      nextLine host cpos.bom cpos.linesize.toNat (e.file.drop s.pos) = .line bytes →
      cpos.stop bytes ≠ -1 → ((∃ t, e.fails t = true) ∨ cpos.stop bytes < 0) →
      NextOutcome host e cpos s (convdErrFile,
        { cpos with offset := cpos.stop bytes, linebuf := m },
        { s with tick := t, pos := k,
                 log := s.log ++ .call .usePos true ::
                   (evs ++ [.call (.seekSet (cpos.stop bytes)) false]) })
  | seekLost (bytes : List UInt8) (m : Mem UInt8) (t : Nat) (evs : List Event) :
      Transfers (.read .linebuf) evs →
      nextLine host cpos.bom cpos.linesize.toNat (e.file.drop s.pos) = .line bytes →
      m.load 0 bytes.length = bytes → cpos.stop bytes = -1 →
      NextOutcome host e cpos s (bytes.length,
        { cpos with offset := cpos.stop bytes, linebuf := m },
        { s with tick := t,
                 pos := s.pos + ((e.file.drop s.pos).take cpos.linesize.toNat).length,
                 log := s.log ++ .call .usePos true ::
                   (evs ++ [.call (.seekSet (cpos.stop bytes)) false]) })

/-- The line in the buffer is the next line of the file. -/
theorem cutLine_nextLine {host : Endian} {bom : UcsBom} {L : Nat} {ahead : List UInt8}
    {m : Mem UInt8} (hne : ahead.take L ≠ [])
    (hm : m.load 0 (ahead.take L).length = ahead.take L) :
    (isText bom = true ∧ (cutLine host bom (toInt (ahead.take L).length) m).1 = L ∧
      nextLine host bom L ahead = .insuff) ∨
    (¬ (isText bom = true ∧ (cutLine host bom (toInt (ahead.take L).length) m).1 = L) ∧
      ∃ bytes, nextLine host bom L ahead = .line bytes ∧
        (cutLine host bom (toInt (ahead.take L).length) m).1 = bytes.length ∧
        (cutLine host bom (toInt (ahead.take L).length) m).2.load 0 bytes.length = bytes) := by
  rcases hbom : isText bom with _ | _
  · refine .inr ⟨fun h => Bool.false_ne_true h.1, _, nextLine_units hbom hne, ?_⟩
    obtain ⟨hcb, hload⟩ := @cutLine_units host bom m hbom _ hm
    have hle := toInt_le (ahead.take L).length
    have hdiv := Nat.div_mul_le_self (toInt (ahead.take L).length).toNat (unitWidth bom)
    have hlen : (toInt (ahead.take L).length).toNat / unitWidth bom * unitWidth bom
        ≤ (ahead.take L).length := by omega
    rw [length_convertUnits (length_lineConvert host bom) _ _
      (Nat.le_trans hlen (List.length_take_le' _ _)), hcb, hload]
    exact ⟨rfl, convertUnits_take _ _ _ (Nat.le_trans hlen (List.length_take_le _ _))⟩
  · rcases htake : ahead.take L with _ | ⟨b, bs⟩
    · exact absurd htake hne
    · have hnext := @nextLine_of_take host bom L hbom ahead b bs htake _ rfl
      rw [htake] at hm hnext
      rw [cutLine_text hbom hm, hnext]
      generalize (toInt (b :: bs).length).toNat = rdlen
      have hle : (List.runTail topBit b (bs.take (rdlen - 1))).length ≤ bs.length :=
        Nat.le_trans (List.length_runTail_le _ _ _) (List.length_take_le' _ _)
      by_cases hfull : (List.runTail topBit b (bs.take (rdlen - 1))).length + 1 = L
      · rw [if_pos hfull]
        exact .inl ⟨rfl, hfull, rfl⟩
      · rw [if_neg hfull]
        refine .inr ⟨fun h => hfull h.2, _, rfl, ?_, ?_⟩
        · rw [List.length_take, List.length_cons]
          omega
        · conv_rhs => rw [← hm]
          rw [Mem.take_load _ _ (by rw [List.length_cons]; omega), List.length_take,
            List.length_cons, Nat.min_eq_left (by omega)]

/-- The seek back to where the line ends, once there is a line. -/
theorem nextOutcome_of_seek {host : Endian} {e : Env} {cpos : ConvPosition} {s : Sys}
    {bytes : List UInt8} {m : Mem UInt8} {t : Nat} {evs : List Event}
    (hevs : Transfers (.read .linebuf) evs)
    (hnext : nextLine host cpos.bom cpos.linesize.toNat (e.file.drop s.pos) = .line bytes)
    (hload : m.load 0 bytes.length = bytes) {back : Int × Sys}
    (hback : fileSeekSet e (cpos.stop bytes) { s with
      tick := t, pos := s.pos + ((e.file.drop s.pos).take cpos.linesize.toNat).length,
      log := s.log ++ .call .usePos true :: evs } = back) :
    NextOutcome host e cpos s
      (if back.1 ≠ cpos.stop bytes then
        (convdErrFile, { cpos with offset := cpos.stop bytes, linebuf := m }, back.2)
      else (bytes.length, { cpos with offset := cpos.stop bytes, linebuf := m }, back.2)) := by
  have hlog : ∀ ev, s.log ++ .call .usePos true :: evs ++ [ev]
      = s.log ++ .call .usePos true :: (evs ++ [ev]) := fun _ => List.append_assoc _ _ _
  rw [← hback, fileSeekSet]
  rcases e.seek_cases (.seekSet (cpos.stop bytes)) (cpos.stop bytes)
    { s with tick := t,
             pos := s.pos + ((e.file.drop s.pos).take cpos.linesize.toNat).length,
             log := s.log ++ .call .usePos true :: evs } with
    ⟨h0, -, hseek⟩ | ⟨hfault, hseek⟩
  · rw [hseek, if_neg (not_not.mpr rfl), Sys.did, hlog]
    exact .line _ _ _ _ hevs hnext hload h0
  · rw [hseek]
    by_cases hlost : cpos.stop bytes = -1
    · rw [if_neg (by rw [hlost]; exact not_not.mpr rfl), Sys.did, hlog]
      exact .seekLost _ _ _ _ hevs hnext hload hlost
    · rw [if_pos (Ne.symm hlost), Sys.did, hlog]
      refine .seekFails bytes _ _ _ _ hevs hnext hlost ?_
      rcases hfault with hfail | hneg | hbig
      · exact .inl ⟨_, hfail⟩
      · exact .inr hneg
      · exact absurd (toSb8_lt _) (Int.not_lt.mpr hbig)

/-- A call of `ucs_file_read_next` comes to one of these. -/
theorem readNext_outcome (host : Endian) (e : Env) {cpos : ConvPosition} (s : Sys)
    (hL : cpos.linesize ≠ 0xFFFFFFFF) :
    NextOutcome host e cpos s (ucsFileReadNext host e cpos s) := by
  have hsize : cpos.linesize.toNat < 2 ^ 32 - 1 := by
    have := cpos.linesize.toNat_lt
    have hne : cpos.linesize.toNat ≠ 2 ^ 32 - 1 := fun h => hL (UInt32.toNat_inj.mp h)
    omega
  have hlog : ∀ evs, s.log ++ [.call .usePos true] ++ evs = s.log ++ .call .usePos true :: evs :=
    fun evs => List.append_assoc _ _ _
  rcases fileReadbytes_cases e .linebuf cpos.linesize.toNat (s.did .usePos true) rfl with
    ⟨t, evs, hevs, hread⟩ | ⟨k, t, evs, hevs, hfault, hread⟩
  · have hlt : ((e.file.drop s.pos).take cpos.linesize.toNat).length < 2 ^ 32 - 1 :=
      Nat.lt_of_le_of_lt (List.length_take_le _ _) hsize
    have hread' : fileReadbytes e .linebuf cpos.linesize.toNat (s.did .usePos true)
        = (toInt ((e.file.drop s.pos).take cpos.linesize.toNat).length,
            (e.file.drop s.pos).take cpos.linesize.toNat,
            { s with tick := t, pos := s.pos + ((e.file.drop s.pos).take
                       cpos.linesize.toNat).length,
                     log := s.log ++ .call .usePos true :: evs }) := by
      rw [hread, ← hlog]
      rfl
    by_cases hnil : (e.file.drop s.pos).take cpos.linesize.toNat = []
    · have hzero : toInt ([] : List UInt8).length = 0 := (toInt_eq_zero (by decide)).mpr rfl
      have hfin := @NextOutcome.finished host e cpos s (cpos.linebuf.store 0 []) t evs hevs
        (by simp only [nextLine, hnil])
      rw [hnil, List.length_nil, Nat.add_zero] at hread'
      simp only [ucsFileReadNext, hread']
      rw [show (0 : Nat) = ([] : List UInt8).length from rfl, hzero, if_neg (by decide), if_pos rfl]
      exact hfin
    · have hne1 := toInt_ne_neg_one hlt
      have hne0 : toInt ((e.file.drop s.pos).take cpos.linesize.toNat).length ≠ 0 := by
        rw [Ne, toInt_eq_zero (by omega), List.length_eq_zero_iff]
        exact hnil
      have hm := Mem.load_store_self cpos.linebuf 0 ((e.file.drop s.pos).take cpos.linesize.toNat)
      simp only [ucsFileReadNext, hread', if_neg hne1, if_neg hne0]
      rcases @cutLine_nextLine host cpos.bom _ _ _ hnil hm with
        ⟨htext, hfull, hnext⟩ | ⟨hnot, bytes, hnext, hlen, hload⟩
      · rw [if_pos ⟨htext, hfull⟩]
        exact .insuff _ _ _ hevs hnext
      · rw [if_neg hnot, hlen]
        exact nextOutcome_of_seek hevs hnext hload rfl
  · have hread' : fileReadbytes e .linebuf cpos.linesize.toNat (s.did .usePos true)
        = (-1, (e.file.drop s.pos).take k,
            { s with tick := t, pos := s.pos + ((e.file.drop s.pos).take k).length,
                     log := s.log ++ .call .usePos true :: evs }) := by
      rw [hread, ← hlog]
      rfl
    simp only [ucsFileReadNext, hread', if_true]
    exact .readFails _ _ _ _ hevs hfault

/-- Reading a line changes neither size of the position object. -/
theorem readNext_sizes (host : Endian) (e : Env) (cpos : ConvPosition) (s : Sys) :
    (ucsFileReadNext host e cpos s).2.1.linesize = cpos.linesize ∧
      (ucsFileReadNext host e cpos s).2.1.linebytes = cpos.linebytes := by
  simp only [ucsFileReadNext]
  split_ifs <;> exact ⟨rfl, rfl⟩

end Convd
