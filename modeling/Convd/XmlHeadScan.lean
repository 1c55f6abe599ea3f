/-
# `Convd.XmlHeadScan` — when the scan for `>` ends, and with what

The scan reads the units that lie wholly before `(int) blen` (`unitsFrom`), one a
turn, and there are three ways it can go:

    a `>` among the first 127 units               it is found            (`scan_found`)
    no `>`, at most 127 units                     the text runs out      (`scan_exhausted`)
    no `>` among the first 127, more units left   no turn changes a thing (`scan_stuck`)

The third is a loop that never ends: with `headbuf` full the offset stands still,
and only the offset is tested.
-/
import Convd.XmlHead

namespace Convd

open Loop

/-! ## The units a scan meets -/

/-- The characters made of the whole units from `off` on. -/
def unitsFrom (x : ConvBuf) (w : Nat) (char : List UInt8 → UInt8) (off : Nat) : List UInt8 :=
  (List.range ((toInt x.blen - off).toNat / w)).map fun i => char (x.bufp.load (off + i * w) w)

/-- The characters of a text, its mark left out. -/
def headUnits (host : Endian) (x : ConvBuf) : List UInt8 :=
  let bom := ucsTextDetectBom x
  unitsFrom x (unitWidth bom) (unitChar host bom) (bomLength bom)

section Scan

variable {x : ConvBuf} {w : Nat} {char : List UInt8 → UInt8}

theorem unitsFrom_of_lt (hw : 0 < w) {off : Nat}
    (h : ((off + (w - 1) : Nat) : Int) < toInt x.blen) :
    unitsFrom x w char off = char (x.bufp.load off w) :: unitsFrom x w char (off + w) := by
  have hcount : (toInt x.blen - off).toNat / w
      = (toInt x.blen - (off + w : Nat)).toNat / w + 1 := by
    have : (toInt x.blen - off).toNat = (toInt x.blen - (off + w : Nat)).toNat + w := by omega
    rw [this, Nat.add_div_right _ hw]
  rw [unitsFrom, hcount, List.range_succ_eq_map, List.map_cons, List.map_map]
  simp only [Nat.zero_mul, Nat.add_zero, unitsFrom]
  congr 2
  funext i
  simp only [Function.comp_apply, Nat.succ_mul]
  rw [Nat.add_assoc, Nat.add_comm w]

theorem unitsFrom_of_not_lt (hw : 0 < w) {off : Nat}
    (h : ¬ ((off + (w - 1) : Nat) : Int) < toInt x.blen) : unitsFrom x w char off = [] := by
  have : (toInt x.blen - off).toNat / w = 0 := Nat.div_eq_of_lt (by omega)
  rw [unitsFrom, this]
  rfl

/-! ## The three endings -/

/-- A turn that reads another character than `>`. -/
theorem scanTurn_again {s : ScanState} {c : UInt8}
    (hlt : ((s.offset + (w - 1) : Nat) : Int) < toInt x.blen)
    (hroom : s.head.length < headbufSize - 1) (hread : char (x.bufp.load s.offset w) = c)
    (hc : c ≠ gt) :
    ∃ log, scanTurn x w char s = .again ⟨s.offset + w, s.head ++ [c], log⟩ := by
  refine ⟨s.log ++ [⟨.input, ⟨s.offset, w⟩⟩, ⟨.headbuf, ⟨s.head.length, 1⟩⟩], ?_⟩
  rw [scanTurn, if_pos hlt, if_pos hroom]
  simp only [hread, if_neg hc]

/-- The turn that reads `>`. -/
theorem scanTurn_leave {s : ScanState}
    (hlt : ((s.offset + (w - 1) : Nat) : Int) < toInt x.blen)
    (hroom : s.head.length < headbufSize - 1) (hread : char (x.bufp.load s.offset w) = gt) :
    ∃ log, scanTurn x w char s = .leave ⟨true, s.offset + w, s.head ++ [gt], log⟩ := by
  refine ⟨s.log ++ [⟨.input, ⟨s.offset, w⟩⟩, ⟨.headbuf, ⟨s.head.length, 1⟩⟩] ++
    [⟨.headbuf, ⟨s.head.length + 1, 1⟩⟩], ?_⟩
  rw [scanTurn, if_pos hlt, if_pos hroom]
  simp only [hread, if_true]

theorem lt_of_unitsFrom_eq_cons (hw : 0 < w) {off : Nat} {c : UInt8} {l : List UInt8}
    (h : unitsFrom x w char off = c :: l) : ((off + (w - 1) : Nat) : Int) < toInt x.blen := by
  by_contra hge
  rw [unitsFrom_of_not_lt hw hge] at h
  exact List.cons_ne_nil _ _ h.symm

theorem scan_found (hw : 0 < w) : ∀ {pre post : List UInt8} {s : ScanState},
    unitsFrom x w char s.offset = pre ++ gt :: post → gt ∉ pre →
    s.head.length + pre.length < headbufSize - 1 →
    ∃ log, Returns (scanTurn x w char) s
      ⟨true, s.offset + (pre.length + 1) * w, s.head ++ (pre ++ [gt]), log⟩
  | [], post, s, hunits, _, hroom => by
      have hlt := lt_of_unitsFrom_eq_cons hw hunits
      rw [unitsFrom_of_lt hw hlt, List.nil_append, List.cons.injEq] at hunits
      obtain ⟨log, hturn⟩ := scanTurn_leave hlt hroom hunits.1
      have hoff : s.offset + (([] : List UInt8).length + 1) * w = s.offset + w := by simp
      exact ⟨log, .leave (hoff ▸ hturn)⟩
  | c :: pre, post, s, hunits, hpre, hroom => by
      have hlt := lt_of_unitsFrom_eq_cons hw hunits
      rw [unitsFrom_of_lt hw hlt, List.cons_append, List.cons.injEq] at hunits
      rw [List.length_cons] at hroom
      have hc : c ≠ gt := fun h => hpre (h ▸ List.mem_cons_self)
      obtain ⟨log₁, hturn⟩ := scanTurn_again hlt (by omega) hunits.1 hc
      obtain ⟨log₂, hret⟩ := scan_found hw (s := ⟨s.offset + w, s.head ++ [c], log₁⟩)
        hunits.2 (fun h => hpre (List.mem_cons_of_mem c h))
        (by rw [List.length_append, List.length_singleton]; omega)
      have hoff : s.offset + w + (pre.length + 1) * w
          = s.offset + ((c :: pre).length + 1) * w := by
        rw [List.length_cons, Nat.succ_mul (pre.length + 1)]; omega
      have hhead : s.head ++ [c] ++ (pre ++ [gt]) = s.head ++ (c :: pre ++ [gt]) := by
        rw [List.append_assoc]; rfl
      rw [hoff, hhead] at hret
      exact ⟨log₂, .again hturn hret⟩

theorem scan_exhausted (hw : 0 < w) : ∀ {rest : List UInt8} {s : ScanState},
    unitsFrom x w char s.offset = rest → gt ∉ rest →
    s.head.length + rest.length ≤ headbufSize - 1 →
    ∃ log, Returns (scanTurn x w char) s
      ⟨false, s.offset + rest.length * w, s.head ++ rest, log⟩
  | [], s, hunits, _, _ => by
      have hlt : ¬ ((s.offset + (w - 1) : Nat) : Int) < toInt x.blen := by
        intro hlt
        rw [unitsFrom_of_lt hw hlt] at hunits
        exact List.cons_ne_nil _ _ hunits
      refine ⟨s.log, .leave ?_⟩
      rw [scanTurn, if_neg hlt, List.length_nil, Nat.zero_mul, Nat.add_zero, List.append_nil]
  | c :: rest, s, hunits, hgt, hroom => by
      have hlt := lt_of_unitsFrom_eq_cons hw hunits
      rw [unitsFrom_of_lt hw hlt, List.cons.injEq] at hunits
      rw [List.length_cons] at hroom
      have hc : c ≠ gt := fun h => hgt (h ▸ List.mem_cons_self)
      obtain ⟨log₁, hturn⟩ := scanTurn_again hlt (by omega) hunits.1 hc
      obtain ⟨log₂, hret⟩ := scan_exhausted hw (s := ⟨s.offset + w, s.head ++ [c], log₁⟩)
        hunits.2 (fun h => hgt (List.mem_cons_of_mem c h))
        (by rw [List.length_append, List.length_singleton]; omega)
      have hoff : s.offset + w + rest.length * w = s.offset + (c :: rest).length * w := by
        rw [List.length_cons, Nat.succ_mul]; omega
      rw [hoff, List.append_assoc] at hret
      exact ⟨log₂, .again hturn hret⟩

/-- No `>` in reach and text left over. -/
structure ScanStuck (x : ConvBuf) (w : Nat) (char : List UInt8 → UInt8) (s : ScanState) :
    Prop where
  room : s.head.length ≤ headbufSize - 1
  noGt : gt ∉ (unitsFrom x w char s.offset).take (headbufSize - 1 - s.head.length)
  more : headbufSize - 1 < s.head.length + (unitsFrom x w char s.offset).length

/-- A stuck scan goes round again and is stuck again. -/
theorem ScanStuck.turn (hw : 0 < w) {s : ScanState} (h : ScanStuck x w char s) :
    ∃ s', scanTurn x w char s = .again s' ∧ ScanStuck x w char s' := by
  obtain ⟨hroom, hgt, hmore⟩ := h
  have hlt : ((s.offset + (w - 1) : Nat) : Int) < toInt x.blen := by
    by_contra hge
    rw [unitsFrom_of_not_lt hw hge, List.length_nil] at hmore
    exact absurd hmore (Nat.not_lt.mpr hroom)
  rcases Nat.lt_or_eq_of_le hroom with hfree | hfull
  · obtain ⟨k, hk⟩ := Nat.exists_eq_add_of_lt hfree
    have htake : headbufSize - 1 - s.head.length = k + 1 := by omega
    rw [unitsFrom_of_lt hw hlt, htake, List.take_succ_cons, List.mem_cons, not_or] at hgt
    rw [unitsFrom_of_lt hw hlt, List.length_cons] at hmore
    obtain ⟨log, hturn⟩ := scanTurn_again hlt hfree rfl (Ne.symm hgt.1)
    have hlen : (s.head ++ [char (x.bufp.load s.offset w)]).length = s.head.length + 1 := by
      rw [List.length_append, List.length_singleton]
    have hk' : headbufSize - 1 - (s.head.length + 1) = k := by omega
    refine ⟨_, hturn, ?_, ?_, ?_⟩
    · exact hlen ▸ hfree
    · rw [hlen, hk']
      exact hgt.2
    · show headbufSize - 1 < _ + (unitsFrom x w char (s.offset + w)).length
      rw [hlen]
      omega
  · have hturn : scanTurn x w char s = .again s := by
      rw [scanTurn, if_pos hlt, if_neg (Nat.not_lt.mpr (Nat.le_of_eq hfull.symm))]
    exact ⟨s, hturn, hroom, hgt, hmore⟩

theorem scan_stuck (hw : 0 < w) {s : ScanState} (h : ScanStuck x w char s) (n : Nat) :
    run (scanTurn x w char) n s = none :=
  run_none_of_stuck (fun _ hs => hs.turn hw) n h

end Scan

/-! ## Termination of `XML_text_parse_head` -/

/-- The call returns. -/
def XmlTextParseHeadReturns (host : Endian) (x : ConvBuf) (r : HeadResult) : Prop :=
  ∃ fuel, xmlTextParseHead host fuel x = some r

/-- The state the scan of `x` starts in. -/
def scanStart (x : ConvBuf) : ScanState :=
  ⟨bomLength (ucsTextDetectBom x), [], (ucsTextDetectBomReads x).map (⟨.input, ·⟩)⟩

/-- The turns of the scan of `x`. -/
def scanOf (host : Endian) (x : ConvBuf) : ScanState → Turn ScanState ScanResult :=
  scanTurn x (unitWidth (ucsTextDetectBom x)) (unitChar host (ucsTextDetectBom x))

/-- More fuel changes no result. -/
theorem xmlTextParseHead_mono {host : Endian} {x : ConvBuf} {r : HeadResult} {n m : Nat}
    (hnm : n ≤ m) (h : xmlTextParseHead host n x = some r) :
    xmlTextParseHead host m x = some r := by
  obtain ⟨t, ht, rfl⟩ := Option.map_eq_some_iff.mp h
  exact Option.map_eq_some_iff.mpr ⟨t, run_mono hnm ht, rfl⟩

theorem XmlTextParseHeadReturns.unique {host : Endian} {x : ConvBuf} {r r' : HeadResult}
    (h : XmlTextParseHeadReturns host x r) (h' : XmlTextParseHeadReturns host x r') : r = r' :=
  unique_of_mono xmlTextParseHead_mono h h'

theorem xmlTextParseHead_returns_iff {host : Endian} {x : ConvBuf} {h : HeadResult} :
    XmlTextParseHeadReturns host x h ↔
      ∃ r, Returns (scanOf host x) (scanStart x) r ∧ headAttributes (ucsTextDetectBom x) r = h := by
  constructor
  · rintro ⟨fuel, hf⟩
    obtain ⟨r, hr, rfl⟩ := Option.map_eq_some_iff.mp hf
    exact ⟨r, ⟨fuel, hr⟩, rfl⟩
  · rintro ⟨r, ⟨fuel, hr⟩, rfl⟩
    exact ⟨fuel, Option.map_eq_some_iff.mpr ⟨r, hr, rfl⟩⟩

/-- What a scan that ended has read: the units through the first `>`, or all of
them when there is none. -/
inductive ScanReads (units : List UInt8) (r : ScanResult) : Prop where
  | found (pre post : List UInt8) : units = pre ++ gt :: post → gt ∉ pre →
      pre.length < headbufSize - 1 → r.found = true → r.head = pre ++ [gt] → ScanReads units r
  | exhausted : gt ∉ units → units.length ≤ headbufSize - 1 → r.found = false →
      r.head = units → ScanReads units r

theorem scan_ends {host : Endian} {x : ConvBuf}
    (h : (headUnits host x).length ≤ headbufSize - 1 ∨
      gt ∈ (headUnits host x).take (headbufSize - 1)) :
    ∃ r, Returns (scanOf host x) (scanStart x) r ∧ ScanReads (headUnits host x) r := by
  have hw := unitWidth_pos (ucsTextDetectBom x)
  by_cases hgt : gt ∈ (headUnits host x).take (headbufSize - 1)
  · obtain ⟨pre, post, hl, hpre⟩ := List.eq_append_cons_of_mem hgt
    have hunits : headUnits host x
        = pre ++ gt :: (post ++ (headUnits host x).drop (headbufSize - 1)) := by
      rw [← List.cons_append, ← List.append_assoc, ← hl, List.take_append_drop]
    have hlen : pre.length < headbufSize - 1 := by
      have := congrArg List.length hl
      rw [List.length_take, List.length_append, List.length_cons] at this
      omega
    obtain ⟨log, hret⟩ := scan_found hw (s := scanStart x) hunits hpre
      ((Nat.zero_add pre.length).symm ▸ hlen)
    exact ⟨_, hret, .found pre _ hunits hpre hlen rfl (List.nil_append _)⟩
  · rcases h with hshort | h
    · rw [List.take_of_length_le hshort] at hgt
      obtain ⟨log, hret⟩ := scan_exhausted hw (s := scanStart x)
        (rfl : _ = headUnits host x) hgt ((Nat.zero_add (headUnits host x).length).symm ▸ hshort)
      exact ⟨_, hret, .exhausted hgt hshort rfl (List.nil_append _)⟩
    · exact absurd h hgt

/-- The scan of a text that has neither: no fuel is enough. -/
theorem scan_diverges {host : Endian} {x : ConvBuf}
    (hlong : headbufSize - 1 < (headUnits host x).length)
    (hgt : gt ∉ (headUnits host x).take (headbufSize - 1)) (n : Nat) :
    run (scanOf host x) n (scanStart x) = none := by
  refine scan_stuck (s := scanStart x) (unitWidth_pos (ucsTextDetectBom x))
    ⟨Nat.zero_le _, hgt, ?_⟩ n
  show headbufSize - 1 < 0 + (headUnits host x).length
  rwa [Nat.zero_add]

/-- Every scan that ends has read the units that way. -/
theorem scan_reads {host : Endian} {x : ConvBuf} {r : ScanResult}
    (h : Returns (scanOf host x) (scanStart x) r) : ScanReads (headUnits host x) r := by
  have hcond : (headUnits host x).length ≤ headbufSize - 1 ∨
      gt ∈ (headUnits host x).take (headbufSize - 1) := by
    by_contra hnot
    rw [not_or, Nat.not_le] at hnot
    obtain ⟨n, hn⟩ := h
    rw [scan_diverges hnot.1 hnot.2] at hn
    cases hn
  obtain ⟨r', hr', hreads⟩ := scan_ends hcond
  exact h.unique hr' ▸ hreads

theorem xmlTextParseHead_returns_of_ends {host : Endian} {x : ConvBuf}
    (h : (headUnits host x).length ≤ headbufSize - 1 ∨
      gt ∈ (headUnits host x).take (headbufSize - 1)) :
    ∃ r, XmlTextParseHeadReturns host x r := by
  obtain ⟨s, hs, -⟩ := scan_ends h
  exact ⟨_, xmlTextParseHead_returns_iff.mpr ⟨s, hs, rfl⟩⟩

/-- `XML_text_parse_head` returns exactly when the text has a `>` among its first
127 units, or no more than 127 units. -/
theorem xmlTextParseHead_returns_iff_gt_or_short (host : Endian) (x : ConvBuf) :
    (∃ r, XmlTextParseHeadReturns host x r) ↔
      (headUnits host x).length ≤ headbufSize - 1 ∨
        gt ∈ (headUnits host x).take (headbufSize - 1) := by
  constructor
  · rintro ⟨r, hr⟩
    by_contra hnot
    rw [not_or, Nat.not_le] at hnot
    obtain ⟨s, ⟨n, hn⟩, -⟩ := xmlTextParseHead_returns_iff.mp hr
    rw [scan_diverges hnot.1 hnot.2] at hn
    cases hn
  · exact xmlTextParseHead_returns_of_ends

/-- The units of a text of bytes are its bytes. -/
theorem headUnits_of_noneBom {host : Endian} {x : ConvBuf} (hbom : ucsTextDetectBom x = .noneBom)
    (hx : x.blen < 2 ^ 31) : headUnits host x = x.bytes := by
  rw [headUnits, hbom]
  apply List.ext_getElem
  · simp [unitsFrom, unitWidth, bomLength, ConvBuf.bytes, toInt_of_lt hx]
  · intro i h1 h2
    simp [unitsFrom, unitWidth, unitChar, bomLength, ConvBuf.bytes, Mem.load]

/-- 128 letters and no `>`: the call does not return. -/
theorem xmlTextParseHead_diverges_on_letters :
    ¬ ∃ r, XmlTextParseHeadReturns .little (ConvBuf.ofList (List.replicate 128 97)) r := by
  have hbom : ucsTextDetectBom (ConvBuf.ofList (List.replicate 128 97)) = .noneBom := by
    simp [ucsTextDetectBom, ConvBuf.ofList, Mem.ofList]
  have hunits : headUnits .little (ConvBuf.ofList (List.replicate 128 97))
      = List.replicate 128 97 := by
    rw [headUnits_of_noneBom hbom (by simp), ConvBuf.bytes_ofList]
  rintro ⟨r, hr⟩
  obtain ⟨s, ⟨n, hn⟩, -⟩ := xmlTextParseHead_returns_iff.mp hr
  rw [scan_diverges] at hn
  · cases hn
  · rw [hunits, List.length_replicate]
    decide
  · rw [hunits, List.take_replicate]
    intro h
    exact absurd (List.eq_of_mem_replicate h) (by decide)

end Convd
