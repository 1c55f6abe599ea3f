/-
# `Convd.DetectBom` — `UCS_file_detect_bom`

Both `UCS_file_detect_bom` and `ucs_file_read_open` read four bytes into an array of zeros and
look for a mark in it, and neither looks at whether the bytes could be read.  A failed read is
taken for a size, and what of the array was not read for bytes of the file:

    mark of the file    reported as it is, if at least these were read before the failure
    none                0
    UCS-2BE, UCS-4LE    2
    UTF-8               3
    UCS-2LE             3, the third not being 0
    UCS-4BE             4, that is never
-/
import Convd.FileTransfer

namespace Convd

/-! ## The code -/

/-- `UCS_file_detect_bom`: the result, `*outbom`, the files. -/
def ucsFileDetectBom (e : Env) (outbom : UcsBom) (s : Sys) : Int × UcsBom × Sys :=
  match fileOpenRead e s with
  | (true, s) =>
      let (cb, bytes, s) := fileReadbytes e .header 4 s
      let bom := ucsTextDetectBom ⟨toSizeT cb, Mem.ofList 0 bytes⟩
      let s := fileClose .closeText s
      (convdNoerror, if bom = .utf8BomAsk then .noneBom else bom, s)
  | (false, s) => (convdErrFile, outbom, s)

/-- A mark, as it is reported. -/
def shownBom (bom : UcsBom) : UcsBom := if bom = .utf8BomAsk then .noneBom else bom

/-- The mark of the file is what is reported. -/
def RightBom (file : List UInt8) (bom : UcsBom) : Prop :=
  ∃ b, StartsWithBom file b ∧ shownBom b = bom

/-- So many bytes show the mark of the file, zeros being behind them. -/
def ShowsBom (file : List UInt8) (k : Nat) : UcsBom → Prop
  | .noneBom | .utf8BomAsk => True
  | .ucs2beBom | .ucs4leBom => 2 ≤ k
  | .utf8Bom => 3 ≤ k
  | .ucs2leBom => 3 ≤ k ∧ file[2]? ≠ some 0
  | .ucs4beBom => 4 ≤ k

/-! ## What is reported -/

section Report

variable {e : Env} {s : Sys} {outbom : UcsBom} {file bytes : List UInt8} {b : UcsBom} {k : Nat}

theorem RightBom.unique {bom bom' : UcsBom} (h : RightBom file bom) (h' : RightBom file bom') :
    bom = bom' := by
  obtain ⟨b, hb, rfl⟩ := h
  obtain ⟨b', hb', rfl⟩ := h'
  rw [hb.unique hb']

/-- The array after a failed read: -1 is a size that covers it. -/
theorem header_shows_failed (hk : bytes.length ≤ 4) :
    ConvBuf.Shows ⟨toSizeT (-1), Mem.ofList 0 bytes⟩
      (bytes ++ List.replicate (4 - bytes.length) 0) := by
  have hsize : toSizeT (-1) = 2 ^ 64 - 1 := rfl
  refine ⟨?_, fun i hi c hc => ?_⟩
  · rw [List.length_append, List.length_replicate]
    dsimp only
    omega
  · show (bytes[i]?).getD 0 = c
    rcases Nat.lt_or_ge i bytes.length with hlt | hge
    · rw [List.getElem?_append_left hlt] at hc
      rw [hc]
      rfl
    · rw [List.getElem?_append_right hge, List.getElem?_replicate] at hc
      split at hc
      · rw [List.getElem?_eq_none hge]
        exact Option.some.inj hc
      · cases hc

theorem rightBom_iff {b' : UcsBom} (hb : StartsWithBom file b) :
    RightBom file (shownBom b') ↔ shownBom b = shownBom b' := by
  constructor
  · rintro ⟨b₁, hb₁, hshown⟩
    rw [hb.unique hb₁, hshown]
  · exact fun h => ⟨b, hb, h⟩

/-- Three bytes or fewer, and zeros: whether the mark is that of the file. -/
theorem rightBom_padded_iff (hk : k ≤ 3) (hlen : k ≤ file.length) {b' : UcsBom}
    (hb : StartsWithBom file b)
    (hb' : StartsWithBom (file.take k ++ List.replicate (4 - k) 0) b') :
    RightBom file (shownBom b') ↔ ShowsBom file k b := by
  rw [rightBom_iff hb]
  obtain rfl | rfl | rfl | rfl : k = 0 ∨ k = 1 ∨ k = 2 ∨ k = 3 := by omega
  · obtain rfl : b' = .noneBom := hb'.unique (show StartsWithBom [0, 0, 0, 0] .noneBom by decide)
    cases b <;> simp [ShowsBom, shownBom]
  · obtain ⟨a, rest, rfl⟩ := List.exists_cons_of_length_pos hlen
    obtain rfl : b' = .noneBom := hb'.unique (by simp [StartsWithBom, bomBytes])
    cases b <;> simp [ShowsBom, shownBom]
  · obtain ⟨a, c, rest, rfl⟩ : ∃ a c rest, file = a :: c :: rest := by
      rcases file with _ | ⟨a, _ | ⟨c, rest⟩⟩ <;> simp at hlen ⊢
    cases b' <;> simp [StartsWithBom, bomBytes] at hb' <;> cases b <;>
      simp [StartsWithBom, bomBytes] at hb <;> simp [ShowsBom, shownBom] <;> grind
  · obtain ⟨a, c, d, rest, rfl⟩ : ∃ a c d rest, file = a :: c :: d :: rest := by
      rcases file with _ | ⟨a, _ | ⟨c, _ | ⟨d, rest⟩⟩⟩ <;> simp at hlen ⊢
    cases b' <;> simp [StartsWithBom, bomBytes] at hb' <;> cases b <;>
      simp [StartsWithBom, bomBytes] at hb <;> simp [ShowsBom, shownBom] <;> grind

/-- A read that fails was not complete. -/
theorem length_lt_of_readLoop {dst : Buf} : ∀ {fuel size : Nat} {s s' : Sys},
    readLoop e dst fuel size s = (false, bytes, s') → bytes.length < size := by
  intro fuel
  induction fuel generalizing bytes with
  | zero =>
      intro size s s' h
      cases h
  | succ fuel ih =>
      intro size s s' h
      rw [readLoop] at h
      split at h
      · cases h
      · rename_i hsize
        split at h
        · cases h
          exact Nat.pos_of_ne_zero hsize
        · cases h
        · rename_i c cs s₁ hread
          have hle := length_read_le hread
          generalize hrest : readLoop e dst fuel (size - (cs.length + 1)) s₁ = r at h
          obtain ⟨ok, rest, s₂⟩ := r
          cases h
          have hlt := ih hrest
          rw [List.length_cons] at hle
          rw [List.length_append, List.length_cons]
          omega

/-- Every way the call can go. -/
inductive DetectOutcome (e : Env) (outbom : UcsBom) (s : Sys) : Int × UcsBom × Sys → Prop where
  | openFails : e.fails s.tick = true →
      DetectOutcome e outbom s (convdErrFile, outbom, s.did .openText false)
  | read (b : UcsBom) (t : Nat) (evs : List Event) : Transfers (.read .header) evs →
      StartsWithBom e.file b →
      DetectOutcome e outbom s (convdNoerror, shownBom b, { s with
        tick := t, pos := (e.file.take 4).length,
        log := s.log ++ .call .openText true :: (evs ++ [.call .closeText true]) })
  | readFails (b : UcsBom) (k t : Nat) (evs : List Event) : TransferFails (.read .header) evs →
      k ≤ 3 → k ≤ e.file.length →
      StartsWithBom (e.file.take k ++ List.replicate (4 - k) 0) b →
      DetectOutcome e outbom s (convdNoerror, shownBom b, { s with
        tick := t, pos := k,
        log := s.log ++ .call .openText true :: (evs ++ [.call .closeText true]) })

theorem ucsFileDetectBom_outcome (e : Env) (outbom : UcsBom) (s : Sys) :
    DetectOutcome e outbom s (ucsFileDetectBom e outbom s) := by
  rcases hfail : e.fails s.tick with _ | _
  · have hopen : fileOpenRead e s = (true, { s.did .openText true with pos := 0 }) := by
      rw [fileOpenRead, hfail]
      rfl
    have hloop := readLoop_outcome e .header { s.did .openText true with pos := 0 } (Nat.le_refl 4)
    have hcat : ∀ evs evs', s.log ++ [.call .openText true] ++ evs ++ evs'
        = s.log ++ .call .openText true :: (evs ++ evs') := by simp
    generalize hr : readLoop e .header 4 4 { s.did .openText true with pos := 0 } = r at hloop
    rw [ucsFileDetectBom, hopen]
    dsimp only
    rw [fileReadbytes, hr]
    cases hloop with
    | read t evs hevs =>
        obtain ⟨b, hdetect, hstarts⟩ := header_starts e.file
        simp only [List.drop_zero, if_true, hdetect]
        simp only [fileClose, Sys.did, hcat, Nat.zero_add]
        exact .read b _ evs hevs hstarts
    | fails k t evs hevs hfault hk =>
        have hlt := length_lt_of_readLoop hr
        simp only [List.drop_zero] at hlt ⊢
        have hpre : e.file.take (e.file.take k).length = e.file.take k :=
          (List.prefix_iff_eq_take.mp (List.take_prefix k e.file)).symm
        have hstarts := startsWithBom_detect (header_shows_failed (Nat.le_of_lt hlt))
        have hle : (e.file.take k).length ≤ e.file.length := List.length_take_le' k e.file
        generalize (e.file.take k).length = n at hlt hpre hstarts hle
        rw [← hpre] at hstarts ⊢
        simp only [Bool.false_eq_true, if_false, fileClose, Sys.did, hcat, Nat.zero_add]
        exact .readFails _ n _ evs hevs (Nat.le_of_lt_succ hlt) hle hstarts
  · have hopen : fileOpenRead e s = (false, s.did .openText false) := by
      rw [fileOpenRead, if_pos hfail]
    simp only [ucsFileDetectBom, hopen]
    exact .openFails hfail

/-- Both functions look at the same array. -/
theorem ucsFileReadOpen_bom {linesizemax : UInt32} {cpos : ConvPosition} {s' : Sys}
    (h : ucsFileReadOpen e linesizemax s = (.ok cpos, s')) :
    cpos.bom = (ucsFileDetectBom e outbom s).2.1 := by
  rw [ucsFileReadOpen] at h
  rw [ucsFileDetectBom]
  generalize fileOpenRead e s = r at h ⊢
  obtain ⟨_ | _, s₁⟩ := r
  · cases h
  · dsimp only at h ⊢
    split at h
    · cases h
    · rename_i hask
      split at h
      · cases h
      · cases h
        exact (if_neg hask).symm

/-- A file that can be opened has its mark reported, rightly if and only if all could be read, or
what was read before the failure shows the mark by itself.  A conversion of the file goes by the
same mark. -/
theorem ucsFileDetectBom_right_iff (e : Env) (outbom : UcsBom) (s : Sys) :
    (e.fails s.tick = true ∧
      ucsFileDetectBom e outbom s = (convdErrFile, outbom, s.did .openText false)) ∨
    ∃ bom s' evs b, ucsFileDetectBom e outbom s = (convdNoerror, bom, s') ∧
      s'.log = s.log ++ .call .openText true :: (evs ++ [.call .closeText true]) ∧
      StartsWithBom e.file b ∧ (RightBom e.file bom ↔ AllOk evs ∨ ShowsBom e.file s'.pos b) ∧
      ∀ linesizemax cpos s'', ucsFileReadOpen e linesizemax s = (.ok cpos, s'') →
        cpos.bom = bom := by
  obtain ⟨b, -, hb⟩ := header_starts e.file
  have hout := ucsFileDetectBom_outcome e outbom s
  have hsame := fun linesizemax cpos s'' (h : ucsFileReadOpen e linesizemax s = (.ok cpos, s'')) =>
    @ucsFileReadOpen_bom e s outbom linesizemax cpos s'' h
  generalize ucsFileDetectBom e outbom s = r at hout hsame ⊢
  cases hout with
  | openFails hfail => exact .inl ⟨hfail, rfl⟩
  | read b' t evs hevs hstarts =>
      exact .inr ⟨_, _, evs, b, rfl, rfl, hb, iff_of_true ⟨b', hstarts, rfl⟩ (.inl hevs.allOk),
        hsame⟩
  | readFails b' k t evs hevs hk hle hstarts =>
      refine .inr ⟨_, _, evs, b, rfl, rfl, hb, ?_, hsame⟩
      rw [rightBom_padded_iff hk hle hb hstarts]
      exact (or_iff_right hevs.not_allOk).symm

end Report

end Convd
