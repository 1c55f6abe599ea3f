/-
# `Convd.Descriptor` — creating a descriptor

`convd_create` stores both codes behind the descriptor, in upper case and each with its NUL:

    codebuf        FROMCODE 0 TOCODE suffix 0
    offset         0          fromlen + 1

`iconv_open` is called on the two strings, and then the suffix is cut off again.  It is a
library outside the repository, so what it answers is a parameter.  The object is the counted
one of `refcobject.h`; on an error its one reference is given back.
-/
import Convd.RefcObject
import Convd.XmlHead

namespace Convd

open CString

variable {σ : Type}

/-! ## The code -/

def cvdSuffixNone : Int := 0
def cvdSuffixIgnore : Int := 1
def cvdSuffixTranslit : Int := 2

/-- `cstr_length(str, maxlen)`, of a string or of a null pointer. -/
def cstrLength (str : Option (List UInt8)) (maxlen : Nat) : Nat :=
  match str with
  | none => 0
  | some s => min s.length maxlen

/-- `conv_descriptor_t`.  The buffer at its end reaches to the end of the object. -/
structure ConvDescriptor (σ : Type) where
  cd : σ
  suffix : Int
  tocodeat : Nat
  codebuf : ConvBuf

/-- The string at an offset of a buffer. -/
def ConvBuf.strAt (b : ConvBuf) (off : Nat) : List UInt8 := cstr (b.bufp.load off (b.blen - off))

/-- `convd_fromcode` -/
def convdFromcode (cvd : ConvDescriptor σ) : List UInt8 := cvd.codebuf.strAt 0

/-- `convd_tocode`; the suffix is stored in `*suffix` besides, if asked for. -/
def convdTocode (cvd : ConvDescriptor σ) : List UInt8 := cvd.codebuf.strAt cvd.tocodeat

/-- What `convd_create` returns and does. -/
structure CreateResult (σ : Type) where
  ret : Int
  /-- What is stored in `*outcvd`. -/
  outcvd : Option (ConvDescriptor σ)
  /-- The object, as it is left. -/
  obj : Option RefcObject
  /-- The calls of `iconv_open`: the strings at its arguments. -/
  opens : List (List UInt8 × List UInt8)
  /-- The writes to `codebuf`. -/
  log : List Span

/-- `refc_object_dec` on the object that has no converter, and the error. -/
def createFails (ret : Int) (opens : List (List UInt8 × List UInt8)) (log : List Span) :
    CreateResult σ :=
  ⟨ret, none, some (refcObjectDec (some 0) (refcObjectNew false)).2, opens, log⟩

/-- `iconv_open` on the two strings in `codebuf`, and what `*outcvd` is set to: on success
the NUL at `cut` is written, if there is one to write. -/
def createOpens (iconvOpen : List UInt8 → List UInt8 → Option σ) (suffix : Int) (tocodeat : Nat)
    (codebuf : ConvBuf) (cut : Option Nat) (log : List Span) : CreateResult σ :=
  let tocode := codebuf.strAt tocodeat
  let fromcode := codebuf.strAt 0
  match iconvOpen tocode fromcode with
  | none => createFails convdErrIconv [(tocode, fromcode)] log
  | some cd =>
      let bufp := match cut with
        | none => codebuf.bufp
        | some off => codebuf.bufp.store off [0]
      ⟨convdNoerror, some ⟨cd, suffix, tocodeat, { codebuf with bufp := bufp }⟩,
        some (refcObjectNew true), [(tocode, fromcode)], log ++ cut.toList.map (⟨·, 1⟩)⟩

/-- Both codes copied into the zeroed object, each made upper case in place. -/
def storedCodes (fromcode tocode : List UInt8) : Mem UInt8 :=
  (Mem.store (fun _ => 0) 0 (cstrToupper fromcode)).store (fromcode.length + 1) (cstrToupper tocode)

/-- `convd_create` -/
def convdCreate (iconvOpen : List UInt8 → List UInt8 → Option σ)
    (fromcode tocode : Option (List UInt8)) (suffix : Int) : CreateResult σ :=
  let fromlen := cstrLength fromcode (cvdEncodingLenMax + 1)
  if fromlen < 1 ∨ fromlen > cvdEncodingLenMax then ⟨convdErrFromcode, none, none, [], []⟩
  else
    let tolen := cstrLength tocode (cvdEncodingLenMax + 1)
    if tolen < 1 ∨ tolen > cvdEncodingLenMax then ⟨convdErrTocode, none, none, [], []⟩
    else
      let tocodeat := fromlen + 1
      let bufp := storedCodes (fromcode.getD []) (tocode.getD [])
      let codebuf : ConvBuf := ⟨fromlen + tolen + 12, bufp⟩
      let log : List Span := [⟨0, fromlen⟩, ⟨0, fromlen⟩, ⟨tocodeat, tolen⟩, ⟨tocodeat, tolen⟩]
      if suffix = cvdSuffixNone then createOpens iconvOpen suffix tocodeat codebuf none log
      else if suffix = cvdSuffixIgnore then
        createOpens iconvOpen suffix tocodeat
          { codebuf with bufp := bufp.store (tocodeat + tolen) (ascii "//IGNORE") }
          (some (tocodeat + tolen)) (log ++ [⟨tocodeat + tolen, 8⟩])
      else if suffix = cvdSuffixTranslit then
        createOpens iconvOpen suffix tocodeat
          { codebuf with bufp := bufp.store (tocodeat + tolen) (ascii "//TRANSLIT") }
          (some (tocodeat + tolen)) (log ++ [⟨tocodeat + tolen, 10⟩])
      else createFails convdErrSuffix [] log

/-! ## The codes of a descriptor -/

/-- A string that stands in a buffer with its NUL. -/
theorem strAt_eq {b : ConvBuf} {off : Nat} {s : List UInt8} (hs : ∀ c ∈ s, c ≠ 0)
    (hload : b.bufp.load off s.length = s) (hnul : b.bufp (off + s.length) = 0)
    (hroom : off + s.length < b.blen) : b.strAt off = s := by
  obtain ⟨k, hk⟩ := Nat.exists_eq_add_of_lt hroom
  have hlen : b.blen - off = s.length + (k + 1) := by omega
  rw [ConvBuf.strAt, hlen, Mem.load_add, hload, Mem.load, hnul]
  exact cstr_append_zero hs _

theorem toupper_ne_zero {c : UInt8} (hc : c ≠ 0) : toupper c ≠ 0 := by
  rw [toupper]
  split
  · rename_i h
    have h97 : 97 ≤ c := h.1
    intro hzero
    have := UInt8.toNat_inj.mpr hzero
    rw [UInt8.toNat_sub_of_le _ _ (UInt8.le_trans (by decide) h97)] at this
    have h97 := UInt8.le_iff_toNat_le.mp h97
    have h32 : (32 : UInt8).toNat = 32 := rfl
    have h97' : (97 : UInt8).toNat = 97 := rfl
    rw [UInt8.toNat_zero] at this
    omega
  · exact hc

theorem cstrToupper_ne_zero {s : List UInt8} (hs : ∀ c ∈ s, c ≠ 0) :
    ∀ c ∈ cstrToupper s, c ≠ 0 := by
  intro c hc
  obtain ⟨d, hd, rfl⟩ := List.mem_map.mp hc
  exact toupper_ne_zero (hs d hd)

@[simp] theorem length_cstrToupper (s : List UInt8) : (cstrToupper s).length = s.length :=
  List.length_map _

theorem cstrLength_of_le {s : List UInt8} {n : Nat} (h : cstrLength (some s) (n + 1) ≤ n) :
    cstrLength (some s) (n + 1) = s.length := by
  rw [cstrLength] at h ⊢
  omega

/-- Both codes stand in the buffer, in upper case and each with its NUL. -/
structure HoldsCodes (m : Mem UInt8) (fromcode tocode : List UInt8) : Prop where
  from_eq : m.load 0 fromcode.length = cstrToupper fromcode
  from_nul : m fromcode.length = 0
  to_eq : m.load (fromcode.length + 1) tocode.length = cstrToupper tocode
  to_nul : m (fromcode.length + 1 + tocode.length) = 0

/-- Behind what was stored the memory is as it was. -/
theorem store_behind (m : Mem UInt8) {off i : Nat} {bs : List UInt8} (h : off + bs.length ≤ i) :
    m.store off bs i = m i := by
  rw [Mem.store_apply, if_pos (by omega), List.getElem?_eq_none (by omega)]
  rfl

theorem holdsCodes_storedCodes (fromcode tocode : List UInt8) :
    HoldsCodes (storedCodes fromcode tocode) fromcode tocode where
  from_eq := by
    rw [storedCodes, Mem.load_store_before _ _ (by omega)]
    exact length_cstrToupper fromcode ▸ Mem.load_store_self _ _ (cstrToupper fromcode)
  from_nul := by
    rw [storedCodes, Mem.store_apply, if_neg (by omega), store_behind _ (by simp)]
  to_eq := length_cstrToupper tocode ▸ Mem.load_store_self _ _ (cstrToupper tocode)
  to_nul := by
    rw [storedCodes, store_behind _ (by simp), store_behind _ (by simp; omega)]

/-- A suffix that is written behind the codes and cut off again. -/
theorem HoldsCodes.cut {m : Mem UInt8} {fromcode tocode : List UInt8}
    (h : HoldsCodes m fromcode tocode) (text : List UInt8) :
    HoldsCodes ((m.store (fromcode.length + 1 + tocode.length) text).store
      (fromcode.length + 1 + tocode.length) [0]) fromcode tocode where
  from_eq := by
    rw [Mem.load_store_before _ _ (by omega), Mem.load_store_before _ _ (by omega), h.from_eq]
  from_nul := by
    rw [Mem.store_apply, if_neg (by omega), Mem.store_apply, if_neg (by omega), h.from_nul]
  to_eq := by
    rw [Mem.load_store_of_disjoint _ (.inl (Nat.le_refl _)),
      Mem.load_store_of_disjoint _ (.inl (Nat.le_refl _)), h.to_eq]
  to_nul := by
    rw [Mem.store_apply, if_pos (Nat.le_refl _), Nat.sub_self]
    rfl

/-- What the codes of a descriptor are. -/
structure Created (cvd : ConvDescriptor σ) (fromcode tocode : List UInt8) : Prop where
  fromcode_eq : convdFromcode cvd = cstrToupper fromcode
  tocode_eq : convdTocode cvd = cstrToupper tocode
  fromcode_pos : 0 < fromcode.length
  fromcode_le : fromcode.length ≤ cvdEncodingLenMax
  tocode_pos : 0 < tocode.length
  tocode_le : tocode.length ≤ cvdEncodingLenMax

theorem createFails_outcvd {ret : Int} {opens : List (List UInt8 × List UInt8)} {log : List Span}
    {cvd : ConvDescriptor σ} : (createFails ret opens log).outcvd ≠ some cvd := by
  rintro ⟨⟩

/-- What `iconv_open` answered, the descriptor has the buffer, cut where it was asked for. -/
theorem createOpens_outcvd {iconvOpen : List UInt8 → List UInt8 → Option σ} {suffix : Int}
    {tocodeat : Nat} {codebuf : ConvBuf} {cut : Option Nat} {log : List Span}
    {cvd : ConvDescriptor σ}
    (h : (createOpens iconvOpen suffix tocodeat codebuf cut log).outcvd = some cvd) :
    cvd.tocodeat = tocodeat ∧ cvd.codebuf = { codebuf with
      bufp := cut.elim codebuf.bufp fun off => codebuf.bufp.store off [0] } := by
  simp only [createOpens] at h
  split at h
  · exact absurd h createFails_outcvd
  · cases h
    cases cut <;> exact ⟨rfl, rfl⟩

/-- The codes of a descriptor whose buffer holds them. -/
theorem created_of_holds {cvd : ConvDescriptor σ} {fromcode tocode : List UInt8}
    (hfrom : ∀ c ∈ fromcode, c ≠ 0) (hto : ∀ c ∈ tocode, c ≠ 0)
    (hfl : 0 < fromcode.length ∧ fromcode.length ≤ cvdEncodingLenMax)
    (htl : 0 < tocode.length ∧ tocode.length ≤ cvdEncodingLenMax)
    (hat : cvd.tocodeat = fromcode.length + 1)
    (hsize : cvd.codebuf.blen = fromcode.length + tocode.length + 12)
    (hholds : HoldsCodes cvd.codebuf.bufp fromcode tocode) : Created cvd fromcode tocode := by
  refine ⟨?_, ?_, hfl.1, hfl.2, htl.1, htl.2⟩
  · apply strAt_eq (cstrToupper_ne_zero hfrom) <;> rw [length_cstrToupper]
    · exact hholds.from_eq
    · rw [Nat.zero_add]
      exact hholds.from_nul
    · omega
  · rw [convdTocode, hat]
    apply strAt_eq (cstrToupper_ne_zero hto) <;> rw [length_cstrToupper]
    · exact hholds.to_eq
    · exact hholds.to_nul
    · omega

/-- A descriptor has the codes it was created with, in upper case and without a suffix. -/
theorem created_of_outcvd {iconvOpen : List UInt8 → List UInt8 → Option σ}
    {fromcode tocode : List UInt8} {suffix : Int} {cvd : ConvDescriptor σ}
    (hfrom : ∀ c ∈ fromcode, c ≠ 0) (hto : ∀ c ∈ tocode, c ≠ 0)
    (h : (convdCreate iconvOpen (some fromcode) (some tocode) suffix).outcvd = some cvd) :
    Created cvd fromcode tocode := by
  have hholds := holdsCodes_storedCodes fromcode tocode
  simp only [convdCreate] at h
  split at h
  · cases h
  · rename_i hfl
    have hfl' := @cstrLength_of_le fromcode cvdEncodingLenMax (by omega)
    split at h
    · cases h
    · rename_i htl
      have htl' := @cstrLength_of_le tocode cvdEncodingLenMax (by omega)
      rw [hfl'] at hfl
      rw [htl'] at htl
      simp only [hfl', htl', Option.getD_some] at h
      split_ifs at h
      · obtain ⟨hat, hbuf⟩ := createOpens_outcvd h
        exact created_of_holds hfrom hto (by omega) (by omega) hat (by rw [hbuf])
          (by rw [hbuf]; exact hholds)
      · obtain ⟨hat, hbuf⟩ := createOpens_outcvd h
        exact created_of_holds hfrom hto (by omega) (by omega) hat (by rw [hbuf])
          (by rw [hbuf]; exact hholds.cut _)
      · obtain ⟨hat, hbuf⟩ := createOpens_outcvd h
        exact created_of_holds hfrom hto (by omega) (by omega) hat (by rw [hbuf])
          (by rw [hbuf]; exact hholds.cut _)
      · exact absurd h createFails_outcvd

end Convd
