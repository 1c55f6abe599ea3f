/-
# `Convd.Iconv` — converters, and `convd_conv_text`

`iconv` is a library outside the repository, so a converter is a parameter: the
two calls the code makes of it, on a state it keeps to itself.  What is asked of it is what
the manual page promises of the call with an input: an answer other than −1 has
consumed all of the input, and no answer writes more than there is room for.

`Implements` is the converter that depends on its input alone once it was reset.
-/
import Convd.File

namespace Convd

/-- What `iconv` did: whether it answered other than −1, how far it advanced both
pointers, and the state it is in now. -/
structure Reply (σ : Type) where
  ok : Bool
  consumed : Nat
  out : List UInt8
  next : σ

/-- A converter. -/
structure Iconv (σ : Type) where
  /-- `iconv(cd, NULL, NULL, NULL, NULL)`; none for −1. -/
  reset : σ → Option σ
  /-- `iconv(cd, &in, &inleft, &out, &outleft)`. -/
  conv : σ → List UInt8 → Nat → Reply σ
  consumed_eq : ∀ cd input room, (conv cd input room).ok = true →
    (conv cd input room).consumed = input.length
  out_le : ∀ cd input room, (conv cd input room).out.length ≤ room

variable {σ : Type}

/-- The `for (;;)` of `convd_conv_text`.  Fuel runs out only if `iconv` keeps
answering without consuming anything. -/
def convLoop (ic : Iconv σ) : Nat → σ → List UInt8 → Nat → Sys → Option (List UInt8) × σ × Sys
  | 0, cd, _, _, s => (none, cd, s)
  | fuel + 1, cd, input, room, s =>
      let r := ic.conv cd input room
      let s := s.did (.iconv input.length) r.ok
      if r.ok then
        if input.length - r.consumed = 0 then (some r.out, r.next, s)
        else
          let (rest, cd, s) :=
            convLoop ic fuel r.next (input.drop r.consumed) (room - r.out.length) s
          (rest.map (r.out ++ ·), cd, s)
      else (none, r.next, s)

/-- `convd_conv_text`: the bytes written, none for `CONVD_ERROR_SIZE`. -/
def convdConvText (ic : Iconv σ) (cd : σ) (input : List UInt8) (room : Nat) (s : Sys) :
    Option (List UInt8) × σ × Sys :=
  let s := s.note (.convText input)
  match ic.reset cd with
  | none => (none, cd, s.did .iconvReset false)
  | some cd => convLoop ic (input.length + 1) cd input room (s.did .iconvReset true)

/-- What the `for (;;)` has put into the output buffer when it is left, one way or the other. -/
def convWritten (ic : Iconv σ) : Nat → σ → List UInt8 → Nat → List UInt8
  | 0, _, _, _ => []
  | fuel + 1, cd, input, room =>
      let r := ic.conv cd input room
      if r.ok ∧ input.length - r.consumed ≠ 0 then
        r.out ++ convWritten ic fuel r.next (input.drop r.consumed) (room - r.out.length)
      else r.out

/-- What `convd_conv_text` leaves in the output buffer, which on failure is part of a
conversion. -/
def convdConvTextWritten (ic : Iconv σ) (cd : σ) (input : List UInt8) (room : Nat) :
    List UInt8 :=
  match ic.reset cd with
  | none => []
  | some cd => convWritten ic (input.length + 1) cd input room

/-- What a text converts to in the room there is, from any state. -/
def Iconv.text (ic : Iconv σ) (cd : σ) (input : List UInt8) (room : Nat) : Option (List UInt8) :=
  match ic.reset cd with
  | none => none
  | some cd => if (ic.conv cd input room).ok then some (ic.conv cd input room).out else none

/-- The calls of a conversion that went well. -/
def convCalls (input : List UInt8) : List Event :=
  [.convText input, .call .iconvReset true, .call (.iconv input.length) true]

/-- The calls of a conversion that failed, in the reset or in the conversion. -/
def ConvFails (input : List UInt8) (evs : List Event) : Prop :=
  evs = [.convText input, .call .iconvReset false] ∨
  evs = [.convText input, .call .iconvReset true, .call (.iconv input.length) false]

theorem Iconv.length_text_le {ic : Iconv σ} {cd : σ} {input out : List UInt8} {room : Nat}
    (h : ic.text cd input room = some out) : out.length ≤ room := by
  rw [Iconv.text] at h
  split at h
  · cases h
  · split at h
    · cases h
      exact ic.out_le _ _ _
    · cases h

/-- `convd_conv_text` makes one reset and one conversion, and answers as they do. -/
theorem convdConvText_cases (ic : Iconv σ) (cd : σ) (input : List UInt8) (room : Nat) (s : Sys) :
    (∃ out cd' t, ic.text cd input room = some out ∧
      convdConvText ic cd input room s =
        (some out, cd', { s with tick := t, log := s.log ++ convCalls input })) ∨
    (∃ cd' t evs, ic.text cd input room = none ∧ ConvFails input evs ∧
      convdConvText ic cd input room s =
        (none, cd', { s with tick := t, log := s.log ++ evs })) := by
  rcases hreset : ic.reset cd with _ | cd'
  · refine .inr ⟨cd, s.tick + 1, _, by rw [Iconv.text, hreset], .inl rfl, ?_⟩
    simp only [convdConvText, hreset, Sys.note, Sys.did, List.append_assoc, List.singleton_append]
  · rcases hok : (ic.conv cd' input room).ok with _ | _
    · refine .inr ⟨(ic.conv cd' input room).next, s.tick + 2, _,
        by simp [Iconv.text, hreset, hok], .inr rfl, ?_⟩
      simp only [convdConvText, hreset, convLoop, hok, Bool.false_eq_true, if_false, Sys.note,
        Sys.did, List.append_assoc, List.cons_append, List.nil_append]
    · refine .inl ⟨(ic.conv cd' input room).out, (ic.conv cd' input room).next, s.tick + 2,
        by simp only [Iconv.text, hreset, hok, if_true], ?_⟩
      have hall : input.length - (ic.conv cd' input room).consumed = 0 := by
        rw [ic.consumed_eq _ _ _ hok, Nat.sub_self]
      simp only [convdConvText, hreset, convLoop, hok, if_true, hall, Sys.note, Sys.did,
        List.append_assoc, List.cons_append, List.nil_append, convCalls]

/-- One conversion is all there is to the loop. -/
theorem convdConvTextWritten_eq (ic : Iconv σ) {cd cd' : σ} (input : List UInt8) (room : Nat)
    (hreset : ic.reset cd = some cd') :
    convdConvTextWritten ic cd input room = (ic.conv cd' input room).out := by
  simp only [convdConvTextWritten, hreset, convWritten]
  rw [if_neg]
  rintro ⟨hok, hmore⟩
  rw [ic.consumed_eq _ _ _ hok, Nat.sub_self] at hmore
  exact hmore rfl

/-- On success it is the conversion. -/
theorem convdConvTextWritten_of_text {ic : Iconv σ} {cd : σ} {input out : List UInt8} {room : Nat}
    (h : ic.text cd input room = some out) : convdConvTextWritten ic cd input room = out := by
  rw [Iconv.text] at h
  rcases hreset : ic.reset cd with _ | cd'
  · rw [hreset] at h
    cases h
  · simp only [hreset] at h
    rw [convdConvTextWritten_eq ic input room hreset]
    split at h
    · exact Option.some.inj h
    · cases h

/-! ## Converters that compute a function of the text -/

/-- From whatever state, a text is converted by `conv`, if the result fits. -/
def Implements (ic : Iconv σ) (conv : List UInt8 → Option (List UInt8)) : Prop :=
  ∀ cd input room, ic.text cd input room = (conv input).filter (·.length ≤ room)

/-- Every text of at most `n` bytes is accepted, whatever the state, in `room` bytes. -/
def Iconv.Accepts (ic : Iconv σ) (n room : Nat) : Prop :=
  ∀ cd input, input.length ≤ n → (ic.text cd input room).isSome

/-- The converter without state that implements `conv`. -/
def Iconv.ofFun (conv : List UInt8 → Option (List UInt8)) : Iconv Unit where
  reset := some
  conv _ input room :=
    match (conv input).filter (·.length ≤ room) with
    | some out => ⟨true, input.length, out, ()⟩
    | none => ⟨false, 0, [], ()⟩
  consumed_eq _ input room h := by
    cases hconv : (conv input).filter (·.length ≤ room) with
    | none => simp [hconv] at h
    | some out => rfl
  out_le _ input room := by
    cases hconv : (conv input).filter (·.length ≤ room) with
    | none => exact Nat.zero_le _
    | some out => simpa using (Option.filter_eq_some_iff.mp hconv).2

theorem Iconv.implements_ofFun (conv : List UInt8 → Option (List UInt8)) :
    Implements (.ofFun conv) conv := by
  intro cd input room
  cases hconv : (conv input).filter (·.length ≤ room) <;> simp [Iconv.text, Iconv.ofFun, hconv]

end Convd
