/-
# `Convd.Lib.Code` — texts in a code, and from one code to another

A code writes each letter as a word, or has none for it; a text is the words of its letters, one
after the other.  A function *transcodes* from `A` to `B` when it makes of a text in `A` the text
in `B` that has the same letters, and of everything else nothing.

When a key is constant along each word of `A`, no run of a text divides a letter, and a function
that transcodes from `A` works run by run (`Transcodes.runWise`).
-/
import Convd.Lib.Runs

/-- The word a letter is written as, if there is one. -/
structure Code (α β : Type) where
  word : α → Option (List β)

namespace Code

open List

variable {α β : Type}

/-- The letters are written as the text. -/
inductive Writes (A : Code α β) : List α → List β → Prop where
  | nil : Writes A [] []
  | cons {a : α} {as : List α} {w text : List β} : A.word a = some w → Writes A as text →
      Writes A (a :: as) (w ++ text)

/-- A word of one key, and not the empty one. -/
structure Uniform {κ : Type} (k : β → κ) (A : Code α β) : Prop where
  ne_nil : ∀ a, ∀ w ∈ A.word a, w ≠ []
  key_eq : ∀ a, ∀ w ∈ A.word a, ∀ b ∈ w, ∀ c ∈ w, k b = k c

/-- What is made of a text in `A` is the text in `B` with the same letters. -/
def Transcodes (A B : Code α β) (conv : List β → Option (List β)) : Prop :=
  ∀ text out, conv text = some out ↔ ∃ letters, A.Writes letters text ∧ B.Writes letters out

variable {A B : Code α β} {as bs letters : List α} {text text' out : List β}

/-! ## Texts -/

theorem Writes.append (h : A.Writes as text) (h' : A.Writes bs text') :
    A.Writes (as ++ bs) (text ++ text') := by
  induction h with
  | nil => exact h'
  | cons hw _ ih =>
      rw [append_assoc]
      exact .cons hw ih

theorem Writes.split : ∀ {as : List α} {text : List β}, A.Writes (as ++ bs) text →
    ∃ t u, A.Writes as t ∧ A.Writes bs u ∧ text = t ++ u
  | [], text, h => ⟨[], text, .nil, h, rfl⟩
  | _ :: _, _, .cons hw h => by
      obtain ⟨t, u, ht, hu, rfl⟩ := h.split
      exact ⟨_, u, .cons hw ht, hu, (append_assoc _ _ _).symm⟩

theorem Writes.flatten {pieces : List (List α)} {texts : List (List β)}
    (h : Forall₂ A.Writes pieces texts) : A.Writes pieces.flatten texts.flatten := by
  induction h with
  | nil => exact .nil
  | cons hp _ ih => exact hp.append ih

theorem Writes.pieces : ∀ {pieces : List (List α)} {text : List β}, A.Writes pieces.flatten text →
    ∃ texts, Forall₂ A.Writes pieces texts ∧ texts.flatten = text
  | [], _, .nil => ⟨[], .nil, rfl⟩
  | p :: ps, text, h => by
      obtain ⟨t, u, ht, hu, rfl⟩ := Writes.split (show A.Writes (p ++ ps.flatten) text from h)
      obtain ⟨texts, htexts, rfl⟩ := hu.pieces
      exact ⟨t :: texts, .cons ht htexts, rfl⟩

/-- With words of at least one letter in `A` and at most `n` in `B`, no text becomes longer than
`n` times what it was. -/
theorem Writes.length_le {n : Nat} (hA : ∀ a, ∀ w ∈ A.word a, w ≠ [])
    (hB : ∀ a, ∀ w ∈ B.word a, w.length ≤ n) (h : A.Writes letters text)
    (h' : B.Writes letters out) : out.length ≤ n * text.length := by
  induction h generalizing out with
  | nil =>
      cases h'
      exact Nat.zero_le _
  | @cons a as w text hw _ ih =>
      rcases h' with _ | ⟨hw', hrest⟩
      have hpos := length_pos_iff.mpr (hA a w hw)
      have hword := (hB a _ hw').trans (Nat.le_mul_of_pos_right n hpos)
      rw [length_append, length_append, Nat.mul_add]
      exact Nat.add_le_add hword (ih hrest)

/-! ## Runs -/

section Runs

variable {κ : Type} [DecidableEq κ] {k : β → κ}

/-- A word in front of a text: it begins the first run of the text, or is a run. -/
theorem runs_word_append {w : List β} (hw : w ≠ []) (hkey : ∀ b ∈ w, ∀ c ∈ w, k b = k c) :
    runs k (w ++ text) = w :: runs k text ∨
      ∃ r rs, runs k text = r :: rs ∧ runs k (w ++ text) = (w ++ r) :: rs := by
  obtain ⟨a, ha⟩ := exists_mem_of_ne_nil w hw
  have hconst : ∀ b ∈ w, k b = k a := fun b hb => hkey b hb a ha
  rcases text with _ | ⟨b, text⟩
  · exact .inl (runs_append k hw hconst fun _ h => nomatch h)
  · by_cases hb : k b = k a
    · refine .inr ⟨_, _, runs_cons k b text, ?_⟩
      have hcut : w ++ b :: text
          = (w ++ b :: runTail k b text) ++ text.drop (runTail k b text).length := by
        rw [append_assoc, cons_append, ← take_length_runTail k b text, length_take_of_le
          (length_runTail_le k b text), take_append_drop]
      have hall : ∀ c ∈ w ++ b :: runTail k b text, k c = k a := by
        intro c hc
        rcases mem_append.mp hc with hc | hc
        · exact hconst c hc
        · rcases mem_cons.mp hc with rfl | hc
          · exact hb
          · exact (eq_of_mem_runTail k hc).trans hb
      rw [hcut]
      refine runs_append k (append_ne_nil_of_left_ne_nil hw _) hall fun c hc => ?_
      rw [drop_length_runTail] at hc
      have hnot := head?_dropWhile_not (fun c => k c == k b) text
      rw [hc] at hnot
      simpa [hb] using hnot
    · refine .inl (runs_append k hw hconst fun c hc => ?_)
      rw [← Option.some.inj (show some b = some c from hc)]
      exact hb

/-- The runs of a text are texts, of pieces of its letters. -/
theorem Writes.runs (hA : A.Uniform k) (h : A.Writes letters text) :
    ∃ pieces, pieces.flatten = letters ∧ Forall₂ A.Writes pieces (runs k text) := by
  induction h with
  | nil => exact ⟨[], rfl, .nil⟩
  | @cons a as w text hw _ ih =>
      obtain ⟨pieces, rfl, hpieces⟩ := ih
      have hword : A.Writes [a] w := append_nil w ▸ .cons hw .nil
      rcases runs_word_append (hA.ne_nil a w hw) (hA.key_eq a w hw) with
        hruns | ⟨r, rs, hruns, hruns'⟩
      · rw [hruns]
        exact ⟨[a] :: pieces, rfl, .cons hword hpieces⟩
      · rw [hruns] at hpieces
        rw [hruns']
        rcases hpieces with _ | ⟨hp, hps⟩
        exact ⟨_, rfl, .cons (hword.append hp) hps⟩

end Runs

/-! ## Transcoding -/

theorem forall₂_of_mapM_eq_some {γ δ : Type} {f : γ → Option δ} :
    ∀ {xs : List γ} {ys : List δ}, xs.mapM f = some ys → Forall₂ (fun x y => f x = some y) xs ys
  | [], _, h => by
      obtain rfl := Option.some.inj (show some [] = some _ from h)
      exact .nil
  | x :: xs, ys, h => by
      rw [mapM_cons] at h
      rcases hx : f x with _ | y
      · rw [hx] at h
        cases h
      · rcases hxs : xs.mapM f with _ | ys'
        · rw [hx, hxs] at h
          cases h
        · rw [hx, hxs] at h
          obtain rfl := Option.some.inj (show some (y :: ys') = some ys from h)
          exact .cons hx (forall₂_of_mapM_eq_some hxs)

variable {conv back : List β → Option (List β)}

/-- Back from `B` the text is restored. -/
theorem Transcodes.round (h : Transcodes A B conv) (h' : Transcodes B A back)
    (hconv : conv text = some out) : back out = some text := by
  obtain ⟨letters, hA, hB⟩ := (h text out).mp hconv
  exact (h' out text).mpr ⟨letters, hB, hA⟩

/-- Pieces that are transcoded, and all of it. -/
theorem Transcodes.pieces (h : Transcodes A B conv) {texts outs : List (List β)}
    (hall : Forall₂ (fun text out => conv text = some out) texts outs) :
    ∃ letters, A.Writes letters texts.flatten ∧ B.Writes letters outs.flatten := by
  induction hall with
  | nil => exact ⟨[], .nil, .nil⟩
  | cons hx _ ih =>
      obtain ⟨as, hA, hB⟩ := (h _ _).mp hx
      obtain ⟨bs, hA', hB'⟩ := ih
      exact ⟨as ++ bs, hA.append hA', hB.append hB'⟩

/-- What transcodes from a code of uniform words works run by run. -/
theorem Transcodes.runWise {κ : Type} [DecidableEq κ] {k : β → κ} (h : Transcodes A B conv)
    (hA : A.Uniform k) : RunWise k conv := by
  intro text
  apply Option.ext
  intro out
  constructor
  · intro hout
    obtain ⟨letters, htext, hwrites⟩ := (h text out).mp hout
    obtain ⟨pieces, rfl, hpieces⟩ := htext.runs hA
    obtain ⟨outs, houts, rfl⟩ := hwrites.pieces
    have hall : Forall₂ (fun r o => conv r = some o) (List.runs k text) outs := by
      rw [forall₂_iff_get] at hpieces houts ⊢
      refine ⟨hpieces.1.symm.trans houts.1, fun i hr ho => (h _ _).mpr ⟨pieces.get ⟨i, ?_⟩, ?_⟩⟩
      · exact hpieces.1 ▸ hr
      · exact ⟨hpieces.2 i _ hr, houts.2 i _ ho⟩
    rw [mapM_eq_some_of_forall₂ hall]
    rfl
  · intro hout
    obtain ⟨outs, houts, rfl⟩ := Option.map_eq_some_iff.mp hout
    obtain ⟨letters, hA', hB⟩ := h.pieces (forall₂_of_mapM_eq_some houts)
    rw [flatten_runs] at hA'
    exact (h text outs.flatten).mpr ⟨letters, hA', hB⟩

end Code
