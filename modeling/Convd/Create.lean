/-
# `Convd.Create` — every way `convd_create` can go

Four errors and a success, in the order of the tests:

    `fromcode` not of 1 to 64 characters     `CONVD_ERR_FROMCODE`    no object
    `tocode` not of 1 to 64 characters       `CONVD_ERR_TOCODE`      no object
    `suffix` none of the three               `CONVD_ERR_SUFFIX`      object released
    `iconv_open` fails                       `CONVD_ERR_ICONV`       object released
    otherwise                                `CONVD_NOERROR`

The slack of 12 bytes behind the two codes is what they need at most: two NULs and the
ten bytes of `//TRANSLIT`.
-/
import Convd.Descriptor

namespace Convd

open CString

variable {σ : Type}

/-! ## The arguments -/

/-- The text a suffix mode stands for. -/
def suffixText (suffix : Int) : Option (List UInt8) :=
  if suffix = cvdSuffixNone then some []
  else if suffix = cvdSuffixIgnore then some (ascii "//IGNORE")
  else if suffix = cvdSuffixTranslit then some (ascii "//TRANSLIT")
  else none

/-- A code that is taken. -/
def FitsCode (code : List UInt8) : Prop := 1 ≤ code.length ∧ code.length ≤ cvdEncodingLenMax

/-- Arguments with which `iconv_open` is called, and the text of the suffix. -/
structure Openable (fromcode tocode : Option (List UInt8)) (suffix : Int)
    (f t text : List UInt8) : Prop where
  from_eq : fromcode = some f
  to_eq : tocode = some t
  from_fits : FitsCode f
  to_fits : FitsCode t
  text_eq : suffixText suffix = some text

theorem suffixText_cases {suffix : Int} {text : List UInt8} (h : suffixText suffix = some text) :
    (suffix = cvdSuffixNone ∧ text = []) ∨
      (suffix ≠ cvdSuffixNone ∧ suffix = cvdSuffixIgnore ∧ text = ascii "//IGNORE") ∨
      (suffix ≠ cvdSuffixNone ∧ suffix ≠ cvdSuffixIgnore ∧ suffix = cvdSuffixTranslit ∧
        text = ascii "//TRANSLIT") := by
  rw [suffixText] at h
  split_ifs at h with h1 h2 h3
  · exact .inl ⟨h1, (Option.some.inj h).symm⟩
  · exact .inr (.inl ⟨h1, h2, (Option.some.inj h).symm⟩)
  · exact .inr (.inr ⟨h1, h2, h3, (Option.some.inj h).symm⟩)

theorem suffixText_length_le {suffix : Int} {text : List UInt8}
    (h : suffixText suffix = some text) : text.length ≤ 10 ∧ ∀ c ∈ text, c ≠ 0 := by
  rcases suffixText_cases h with ⟨-, rfl⟩ | ⟨-, -, rfl⟩ | ⟨-, -, -, rfl⟩
  · exact ⟨by decide, fun _ h => nomatch h⟩
  · exact ⟨by decide, by decide +kernel⟩
  · exact ⟨by decide, by decide +kernel⟩

theorem cstrLength_cases (code : Option (List UInt8)) :
    (∃ s, code = some s ∧ FitsCode s ∧ cstrLength code (cvdEncodingLenMax + 1) = s.length ∧
        ¬ (s.length < 1 ∨ s.length > cvdEncodingLenMax)) ∨
      ((∀ s, code = some s → ¬ FitsCode s) ∧
        (cstrLength code (cvdEncodingLenMax + 1) < 1 ∨
          cstrLength code (cvdEncodingLenMax + 1) > cvdEncodingLenMax)) := by
  cases code with
  | none => exact .inr ⟨fun s h => (nomatch h), .inl Nat.zero_lt_one⟩
  | some s =>
      by_cases hs : FitsCode s
      · obtain ⟨hpos, hle⟩ := hs
        exact .inl ⟨s, rfl, ⟨hpos, hle⟩, Nat.min_eq_left (by omega), by omega⟩
      · refine .inr ⟨fun s' h => Option.some.inj h ▸ hs, ?_⟩
        rw [FitsCode, not_and_or] at hs
        rw [cstrLength]
        omega

/-! ## What the call comes to -/

/-- `codebuf` as `iconv_open` is given it. -/
def openedBuf (f t text : List UInt8) : ConvBuf :=
  ⟨f.length + t.length + 12, (storedCodes f t).store (f.length + 1 + t.length) text⟩

/-- The writes that make it. -/
def openedLog (f t text : List UInt8) : List Span :=
  [⟨0, f.length⟩, ⟨0, f.length⟩, ⟨f.length + 1, t.length⟩, ⟨f.length + 1, t.length⟩] ++
    if text = [] then [] else [⟨f.length + 1 + t.length, text.length⟩]

/-- Where the suffix is cut off again. -/
def openedCut (f t text : List UInt8) : Option Nat :=
  if text = [] then none else some (f.length + 1 + t.length)

/-- The five ways. -/
inductive CreateOutcome (iconvOpen : List UInt8 → List UInt8 → Option σ)
    (fromcode tocode : Option (List UInt8)) (suffix : Int) : CreateResult σ → Prop where
  | badFrom : (∀ f, fromcode = some f → ¬ FitsCode f) →
      CreateOutcome iconvOpen fromcode tocode suffix ⟨convdErrFromcode, none, none, [], []⟩
  | badTo : (∀ t, tocode = some t → ¬ FitsCode t) →
      CreateOutcome iconvOpen fromcode tocode suffix ⟨convdErrTocode, none, none, [], []⟩
  | badSuffix (f t : List UInt8) : fromcode = some f → tocode = some t →
      FitsCode f → FitsCode t → suffixText suffix = none →
      CreateOutcome iconvOpen fromcode tocode suffix
        (createFails convdErrSuffix [] (openedLog f t []))
  | opens (f t text : List UInt8) : Openable fromcode tocode suffix f t text →
      CreateOutcome iconvOpen fromcode tocode suffix
        (createOpens iconvOpen suffix (f.length + 1) (openedBuf f t text) (openedCut f t text)
          (openedLog f t text))

theorem convdCreate_outcome (iconvOpen : List UInt8 → List UInt8 → Option σ)
    (fromcode tocode : Option (List UInt8)) (suffix : Int) :
    CreateOutcome iconvOpen fromcode tocode suffix
      (convdCreate iconvOpen fromcode tocode suffix) := by
  rcases cstrLength_cases fromcode with ⟨f, rfl, hf, hfl, hfl'⟩ | ⟨hf, hfl⟩
  · rcases cstrLength_cases tocode with ⟨t, rfl, ht, htl, htl'⟩ | ⟨ht, htl⟩
    · simp only [convdCreate, hfl, htl, if_neg hfl', if_neg htl', Option.getD_some]
      rcases htext : suffixText suffix with _ | text
      · have hnot := htext
        rw [suffixText] at hnot
        split_ifs at hnot with h1 h2 h3
        rw [if_neg h1, if_neg h2, if_neg h3]
        exact .badSuffix f t rfl rfl hf ht htext
      · have hopens := @CreateOutcome.opens σ iconvOpen _ _ suffix f t text
          ⟨rfl, rfl, hf, ht, htext⟩
        rcases suffixText_cases htext with ⟨h1, rfl⟩ | ⟨h1, h2, rfl⟩ | ⟨h1, h2, h3, rfl⟩
        · rw [openedBuf, Mem.store_nil] at hopens
          rw [if_pos h1]
          exact hopens
        · rw [if_neg h1, if_pos h2]
          exact hopens
        · rw [if_neg h1, if_neg h2, if_pos h3]
          exact hopens
    · simp only [convdCreate, hfl, if_neg hfl', if_pos htl]
      exact .badTo ht
  · simp only [convdCreate, if_pos hfl]
    exact .badFrom hf

/-! ## The buffer -/

/-- A string with its NUL, inside a buffer. -/
structure StandsAt (b : ConvBuf) (off : Nat) (s : List UInt8) : Prop where
  load_eq : b.bufp.load off s.length = s
  nul : b.bufp (off + s.length) = 0
  room : off + s.length < b.blen

theorem StandsAt.strAt_eq {b : ConvBuf} {off : Nat} {s : List UInt8} (h : StandsAt b off s)
    (hs : ∀ c ∈ s, c ≠ 0) : b.strAt off = s :=
  Convd.strAt_eq hs h.load_eq h.nul h.room

/-- Behind both codes the object is still zeroed. -/
theorem storedCodes_behind {f t : List UInt8} {i : Nat} (h : f.length + 1 + t.length ≤ i) :
    storedCodes f t i = 0 := by
  rw [storedCodes, store_behind _ (by simpa using h), store_behind _ (by simp; omega)]

theorem standsAt_to {f t text : List UInt8} (htext : text.length ≤ 10) :
    StandsAt (openedBuf f t text) (f.length + 1) (cstrToupper t ++ text) := by
  have hholds := holdsCodes_storedCodes f t
  have hlen : (cstrToupper t ++ text).length = t.length + text.length := by
    rw [List.length_append, length_cstrToupper]
  refine ⟨?_, ?_, ?_⟩
  · rw [hlen, openedBuf, Mem.load_add, Mem.load_store_of_disjoint _ (.inl (Nat.le_refl _)),
      hholds.to_eq, Mem.load_store_self]
  · rw [hlen]
    show (storedCodes f t).store (f.length + 1 + t.length) text _ = 0
    rw [store_behind _ (by omega), storedCodes_behind (by omega)]
  · show _ < f.length + t.length + 12
    omega

theorem standsAt_from (f t text : List UInt8) :
    StandsAt (openedBuf f t text) 0 (cstrToupper f) := by
  have hholds := holdsCodes_storedCodes f t
  refine ⟨?_, ?_, ?_⟩
  · rw [length_cstrToupper, openedBuf, Mem.load_store_before _ _ (by omega),
      hholds.from_eq]
  · rw [length_cstrToupper, Nat.zero_add]
    show (storedCodes f t).store (f.length + 1 + t.length) text f.length = 0
    rw [Mem.store_apply, if_neg (by omega), hholds.from_nul]
  · show 0 + (cstrToupper f).length < f.length + t.length + 12
    rw [length_cstrToupper]
    omega

/-- Every write is inside the object, the NUL that cuts the suffix off too. -/
theorem openedLog_within {f t text : List UInt8} (htext : text.length ≤ 10) :
    (∀ a ∈ openedLog f t text, a.Within (f.length + t.length + 12)) ∧
      ∀ off ∈ openedCut f t text, (⟨off, 1⟩ : Span).Within (f.length + t.length + 12) := by
  have hin : ∀ {off len}, off + len ≤ f.length + t.length + 12 →
      (⟨off, len⟩ : Span).Within (f.length + t.length + 12) := fun h => h
  constructor
  · intro a ha
    simp only [openedLog, List.mem_append, List.mem_cons, List.not_mem_nil, or_false] at ha
    rcases ha with (rfl | rfl | rfl | rfl) | ha
    · exact hin (by omega)
    · exact hin (by omega)
    · exact hin (by omega)
    · exact hin (by omega)
    · split_ifs at ha
      · cases ha
      · rw [List.mem_singleton.mp ha]
        exact hin (by omega)
  · intro off hoff
    rw [openedCut] at hoff
    split_ifs at hoff
    · cases hoff
    · rw [← Option.some.inj hoff]
      exact hin (by omega)

/-! ## The whole call -/

/-- Both codes are taken. -/
def CodesFit (fromcode tocode : Option (List UInt8)) : Prop :=
  (∃ f, fromcode = some f ∧ FitsCode f) ∧ ∃ t, tocode = some t ∧ FitsCode t

/-- What is promised of `convd_create`. -/
structure Creates (iconvOpen : List UInt8 → List UInt8 → Option σ)
    (fromcode tocode : Option (List UInt8)) (suffix : Int) (r : CreateResult σ) : Prop where
  noerror_iff : r.ret = convdNoerror ↔ ∃ f t text, Openable fromcode tocode suffix f t text ∧
    (iconvOpen (cstrToupper t ++ text) (cstrToupper f)).isSome
  /-- The one call of `iconv_open`, and the buffer its arguments point into. -/
  opens : ∀ f t text, Openable fromcode tocode suffix f t text →
    r.opens = [(cstrToupper t ++ text, cstrToupper f)] ∧
      ∃ codebuf cut log, r = createOpens iconvOpen suffix (f.length + 1) codebuf cut log ∧
        codebuf.blen = f.length + t.length + 12 ∧
        StandsAt codebuf (f.length + 1) (cstrToupper t ++ text) ∧
        StandsAt codebuf 0 (cstrToupper f)
  opens_nil : (¬ ∃ f t text, Openable fromcode tocode suffix f t text) → r.opens = []
  within : ∀ f t, fromcode = some f → tocode = some t →
    ∀ a ∈ r.log, a.Within (f.length + t.length + 12)
  allocated_iff : r.obj.isSome ↔ CodesFit fromcode tocode
  success : r.ret = convdNoerror → ∃ cvd f t, r.outcvd = some cvd ∧ fromcode = some f ∧
    tocode = some t ∧ convdFromcode cvd = cstrToupper f ∧ convdTocode cvd = cstrToupper t
  /-- Nothing stored, the object given up once if there is one, and no converter open. -/
  error : r.ret ≠ convdNoerror → r.outcvd = none ∧
    (∀ obj ∈ r.obj, obj.refc = 0 ∧ obj.log = givenUp false) ∧
    ∀ call ∈ r.opens, iconvOpen call.1 call.2 = none

theorem createFails_obj (ret : Int) (opens : List (List UInt8 × List UInt8)) (log : List Span) :
    ∀ obj ∈ (createFails ret opens log : CreateResult σ).obj,
      obj.refc = 0 ∧ obj.log = givenUp false := by
  intro obj hobj
  rw [← Option.some.inj hobj]
  exact ⟨rfl, rfl⟩

/-- The call of `iconv_open`, either way. -/
theorem createOpens_cases (iconvOpen : List UInt8 → List UInt8 → Option σ) (suffix : Int)
    {tocodeat : Nat} {codebuf : ConvBuf} (cut : Option Nat) (log : List Span)
    {tocode fromcode : List UInt8} (hto : codebuf.strAt tocodeat = tocode)
    (hfrom : codebuf.strAt 0 = fromcode) :
    (iconvOpen tocode fromcode = none ∧ createOpens iconvOpen suffix tocodeat codebuf cut log
        = createFails convdErrIconv [(tocode, fromcode)] log) ∨
      ∃ cvd, (iconvOpen tocode fromcode).isSome ∧
        createOpens iconvOpen suffix tocodeat codebuf cut log
          = ⟨convdNoerror, some cvd, some (refcObjectNew true), [(tocode, fromcode)],
              log ++ cut.toList.map (⟨·, 1⟩)⟩ := by
  rcases hopen : iconvOpen tocode fromcode with _ | cd
  · exact .inl ⟨rfl, by simp only [createOpens, hto, hfrom, hopen]⟩
  · have heq : ∃ cvd, createOpens iconvOpen suffix tocodeat codebuf cut log
        = ⟨convdNoerror, some cvd, some (refcObjectNew true), [(tocode, fromcode)],
            log ++ cut.toList.map (⟨·, 1⟩)⟩ := by
      simp only [createOpens, hto, hfrom, hopen]
      exact ⟨_, rfl⟩
    exact .inr (heq.imp fun cvd h => ⟨rfl, h⟩)

/-- A call that did not get as far as `iconv_open`. -/
theorem creates_of_not_openable {iconvOpen : List UInt8 → List UInt8 → Option σ}
    {fromcode tocode : Option (List UInt8)} {suffix : Int} {r : CreateResult σ}
    (hnot : ¬ ∃ f t text, Openable fromcode tocode suffix f t text) (hret : r.ret ≠ convdNoerror)
    (hout : r.outcvd = none) (hopens : r.opens = [])
    (hobj : ∀ obj ∈ r.obj, obj.refc = 0 ∧ obj.log = givenUp false)
    (hwithin : ∀ f t, fromcode = some f → tocode = some t →
      ∀ a ∈ r.log, a.Within (f.length + t.length + 12))
    (halloc : r.obj.isSome ↔ CodesFit fromcode tocode) :
    Creates iconvOpen fromcode tocode suffix r where
  noerror_iff := iff_of_false hret fun ⟨f, t, text, h, _⟩ => hnot ⟨f, t, text, h⟩
  opens f t text h := absurd ⟨f, t, text, h⟩ hnot
  opens_nil _ := hopens
  within := hwithin
  allocated_iff := halloc
  success h := absurd h hret
  error _ := ⟨hout, hobj, by rw [hopens]; exact fun _ h => nomatch h⟩

section Opens

variable {iconvOpen : List UInt8 → List UInt8 → Option σ} {fromcode tocode : Option (List UInt8)}
  {suffix : Int} {f t text : List UInt8} {r : CreateResult σ}

theorem Openable.unique (h : Openable fromcode tocode suffix f t text) {f' t' text' : List UInt8}
    (h' : Openable fromcode tocode suffix f' t' text') : f' = f ∧ t' = t ∧ text' = text :=
  ⟨Option.some.inj (h'.from_eq.symm.trans h.from_eq),
    Option.some.inj (h'.to_eq.symm.trans h.to_eq),
    Option.some.inj (h'.text_eq.symm.trans h.text_eq)⟩

theorem Openable.codesFit (h : Openable fromcode tocode suffix f t text) :
    CodesFit fromcode tocode :=
  ⟨⟨f, h.from_eq, h.from_fits⟩, t, h.to_eq, h.to_fits⟩

/-- The writes before `iconv_open` and the one after it. -/
theorem Openable.within (h : Openable fromcode tocode suffix f t text) {a : Span}
    (ha : a ∈ openedLog f t text ++ (openedCut f t text).toList.map (⟨·, 1⟩))
    {f' t' : List UInt8} (hf' : fromcode = some f') (ht' : tocode = some t') :
    a.Within (f'.length + t'.length + 12) := by
  obtain rfl := Option.some.inj (h.from_eq.symm.trans hf')
  obtain rfl := Option.some.inj (h.to_eq.symm.trans ht')
  obtain ⟨hwithin, hcut⟩ := @openedLog_within f t text (suffixText_length_le h.text_eq).1
  rcases List.mem_append.mp ha with ha | ha
  · exact hwithin a ha
  · obtain ⟨off, hoff, rfl⟩ := List.mem_map.mp ha
    exact hcut off (Option.mem_toList.mp hoff)

/-- What `iconv_open` is given. -/
theorem Openable.opens_eq (h : Openable fromcode tocode suffix f t text)
    (hr : createOpens iconvOpen suffix (f.length + 1) (openedBuf f t text) (openedCut f t text)
      (openedLog f t text) = r)
    (hopens : r.opens = [(cstrToupper t ++ text, cstrToupper f)]) (f' t' text' : List UInt8)
    (h' : Openable fromcode tocode suffix f' t' text') :
    r.opens = [(cstrToupper t' ++ text', cstrToupper f')] ∧
      ∃ codebuf cut log, r = createOpens iconvOpen suffix (f'.length + 1) codebuf cut log ∧
        codebuf.blen = f'.length + t'.length + 12 ∧
        StandsAt codebuf (f'.length + 1) (cstrToupper t' ++ text') ∧
        StandsAt codebuf 0 (cstrToupper f') := by
  obtain ⟨rfl, rfl, rfl⟩ := h.unique h'
  exact ⟨hopens, _, _, _, hr.symm, rfl, standsAt_to (suffixText_length_le h.text_eq).1,
    standsAt_from _ _ _⟩

/-- `iconv_open` does not know the codes. -/
theorem creates_of_refused (h : Openable fromcode tocode suffix f t text)
    (hopen : iconvOpen (cstrToupper t ++ text) (cstrToupper f) = none)
    (heq : createOpens iconvOpen suffix (f.length + 1) (openedBuf f t text) (openedCut f t text)
        (openedLog f t text)
      = createFails convdErrIconv [(cstrToupper t ++ text, cstrToupper f)] (openedLog f t text)) :
    Creates iconvOpen fromcode tocode suffix
      (createFails convdErrIconv [(cstrToupper t ++ text, cstrToupper f)]
        (openedLog f t text)) where
  noerror_iff := by
    refine iff_of_false (convdErr_ne convdErrIconv (by decide)) ?_
    rintro ⟨f', t', text', h', hsome⟩
    obtain ⟨rfl, rfl, rfl⟩ := h.unique h'
    rw [hopen] at hsome
    cases hsome
  opens := h.opens_eq heq rfl
  opens_nil hnot := absurd ⟨f, t, text, h⟩ hnot
  within _ _ hf' ht' _ ha := h.within (List.mem_append_left _ ha) hf' ht'
  allocated_iff := iff_of_true rfl h.codesFit
  success hret := absurd hret (convdErr_ne convdErrIconv (by decide))
  error _ := by
    refine ⟨rfl, createFails_obj _ _ _, ?_⟩
    intro call hcall
    rw [List.mem_singleton.mp hcall]
    exact hopen

/-- `iconv_open` answers, and the codes are read back from what was built. -/
theorem creates_of_opened {cvd : ConvDescriptor σ} (h : Openable fromcode tocode suffix f t text)
    (hopen : (iconvOpen (cstrToupper t ++ text) (cstrToupper f)).isSome)
    (hcodes : convdFromcode cvd = cstrToupper f ∧ convdTocode cvd = cstrToupper t)
    (heq : createOpens iconvOpen suffix (f.length + 1) (openedBuf f t text) (openedCut f t text)
        (openedLog f t text)
      = ⟨convdNoerror, some cvd, some (refcObjectNew true),
          [(cstrToupper t ++ text, cstrToupper f)],
          openedLog f t text ++ (openedCut f t text).toList.map (⟨·, 1⟩)⟩) :
    Creates iconvOpen fromcode tocode suffix
      ⟨convdNoerror, some cvd, some (refcObjectNew true),
        [(cstrToupper t ++ text, cstrToupper f)],
        openedLog f t text ++ (openedCut f t text).toList.map (⟨·, 1⟩)⟩ where
  noerror_iff := iff_of_true rfl ⟨f, t, text, h, hopen⟩
  opens := h.opens_eq heq rfl
  opens_nil hnot := absurd ⟨f, t, text, h⟩ hnot
  within _ _ hf' ht' _ ha := h.within ha hf' ht'
  allocated_iff := iff_of_true rfl h.codesFit
  success _ := ⟨cvd, f, t, rfl, h.from_eq, h.to_eq, hcodes.1, hcodes.2⟩
  error hret := absurd rfl hret

end Opens

/-- Whatever the arguments and whatever `iconv_open` answers. -/
theorem convdCreate_creates (iconvOpen : List UInt8 → List UInt8 → Option σ)
    {fromcode tocode : Option (List UInt8)} (suffix : Int)
    (hfrom : ∀ f ∈ fromcode, ∀ c ∈ f, c ≠ 0) (hto : ∀ t ∈ tocode, ∀ c ∈ t, c ≠ 0) :
    Creates iconvOpen fromcode tocode suffix (convdCreate iconvOpen fromcode tocode suffix) := by
  have hcall := convdCreate_outcome iconvOpen fromcode tocode suffix
  generalize hr : convdCreate iconvOpen fromcode tocode suffix = r at hcall
  cases hcall with
  | badFrom hf =>
      refine creates_of_not_openable (fun ⟨f, t, text, h⟩ => hf f h.from_eq h.from_fits)
        (convdErr_ne convdErrFromcode (by decide)) rfl rfl (fun _ h => nomatch h)
        (fun _ _ _ _ _ h => nomatch h) ?_
      exact iff_of_false Bool.false_ne_true fun ⟨⟨f, heq, h⟩, _⟩ => hf f heq h
  | badTo ht =>
      refine creates_of_not_openable (fun ⟨f, t, text, h⟩ => ht t h.to_eq h.to_fits)
        (convdErr_ne convdErrTocode (by decide)) rfl rfl (fun _ h => nomatch h)
        (fun _ _ _ _ _ h => nomatch h) ?_
      exact iff_of_false Bool.false_ne_true fun ⟨_, t, heq, h⟩ => ht t heq h
  | badSuffix f t hf ht hff htf htext =>
      refine creates_of_not_openable ?_ (convdErr_ne convdErrSuffix (by decide)) rfl rfl
        (createFails_obj _ _ _) ?_ (iff_of_true rfl ⟨⟨f, hf, hff⟩, t, ht, htf⟩)
      · rintro ⟨f', t', text, h⟩
        exact nomatch htext.symm.trans h.text_eq
      · rintro f' t' hf' ht'
        obtain rfl := Option.some.inj (hf.symm.trans hf')
        obtain rfl := Option.some.inj (ht.symm.trans ht')
        exact (@openedLog_within f t [] (Nat.zero_le 10)).1
  | opens f t text hargs =>
      obtain ⟨hlen, hnul⟩ := suffixText_length_le hargs.text_eq
      have hf := cstrToupper_ne_zero (hfrom f hargs.from_eq)
      have ht : ∀ c ∈ cstrToupper t ++ text, c ≠ 0 := by
        intro c hc
        rcases List.mem_append.mp hc with hc | hc
        · exact cstrToupper_ne_zero (hto t hargs.to_eq) c hc
        · exact hnul c hc
      rcases createOpens_cases iconvOpen suffix (openedCut f t text) (openedLog f t text)
          ((standsAt_to hlen).strAt_eq ht) ((standsAt_from f t text).strAt_eq hf) with
        ⟨hopen, heq⟩ | ⟨cvd, hopen, heq⟩
      · rw [heq]
        exact creates_of_refused hargs hopen heq
      · have hcreated : (convdCreate iconvOpen (some f) (some t) suffix).outcvd = some cvd := by
          rw [← hargs.from_eq, ← hargs.to_eq, hr, heq]
        have hcodes := created_of_outcvd (hfrom f hargs.from_eq) (hto t hargs.to_eq) hcreated
        rw [heq]
        exact creates_of_opened hargs hopen ⟨hcodes.fromcode_eq, hcodes.tocode_eq⟩ heq

/-- Two codes of letters, and `//IGNORE`. -/
theorem convdCreate_creates_letters :
    Creates (fun _ _ => some ()) (some (ascii "gbk")) (some (ascii "big5")) cvdSuffixIgnore
      (convdCreate (fun _ _ => some ()) (some (ascii "gbk")) (some (ascii "big5"))
        cvdSuffixIgnore) := by
  refine convdCreate_creates _ _ ?_ ?_
  · rintro f hf
    rw [← Option.some.inj hf]
    decide +kernel
  · rintro t ht
    rw [← Option.some.inj ht]
    decide +kernel

end Convd
