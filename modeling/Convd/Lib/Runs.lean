/-
# `Convd.Lib.Runs` — the maximal runs of a list under a key

`runs k l` cuts `l` into its longest segments of equal key.  It is the library
function `List.splitBy` at the relation "same key"; what is added here is its
recursion from the left, which is the form a reader that eats one run at a
time meets it in.  `RunWise` functions, which treat one run after another, can be
computed run by run.
-/
import Mathlib.Data.List.Forall2
import Mathlib.Data.List.SplitBy
import Mathlib.Data.List.TakeWhile
import Mathlib.Tactic.Common

namespace List

variable {α κ : Type} [DecidableEq κ] (k : α → κ)

/-- The maximal segments of `l` on which `k` is constant. -/
def runs (l : List α) : List (List α) := l.splitBy fun a b => k a == k b

/-- The first run of `a :: l`, less its head. -/
def runTail (a : α) (l : List α) : List α := l.takeWhile fun b => k b == k a

@[simp] theorem runs_nil : runs k [] = [] := rfl

@[simp] theorem flatten_runs (l : List α) : (runs k l).flatten = l := flatten_splitBy _ l

theorem eq_of_mem_runTail {a b : α} {l : List α} (h : b ∈ runTail k a l) : k b = k a := by
  have := mem_takeWhile_imp h
  simpa using this

theorem runTail_take (a : α) (l : List α) (n : Nat) :
    runTail k a (l.take n) = (runTail k a l).take n := take_takeWhile.symm

theorem length_runTail_le (a : α) (l : List α) : (runTail k a l).length ≤ l.length :=
  (takeWhile_sublist _).length_le

theorem take_length_runTail (a : α) (l : List α) :
    l.take (runTail k a l).length = runTail k a l := by
  have hcut : runTail k a l ++ l.dropWhile (fun b => k b == k a) = l := takeWhile_append_dropWhile
  exact (congrArg (take (runTail k a l).length) hcut.symm).trans take_left

theorem drop_length_runTail (a : α) (l : List α) :
    l.drop (runTail k a l).length = l.dropWhile fun b => k b == k a := by
  have hcut : runTail k a l ++ l.dropWhile (fun b => k b == k a) = l := takeWhile_append_dropWhile
  exact (congrArg (drop (runTail k a l).length) hcut.symm).trans drop_left

/-- The keys along the first run. -/
theorem key_of_lt_run {a : α} {l : List α} {i : Nat} (hi : i < (a :: runTail k a l).length) :
    ((a :: l)[i]?).map k = some (k a) := by
  rcases i with _ | i
  · rfl
  · have hlt : i < (runTail k a l).length := Nat.lt_of_succ_lt_succ hi
    have hget : l[i]? = (runTail k a l)[i]? := by
      conv_rhs => rw [← take_length_runTail, getElem?_take_of_lt hlt]
    rw [getElem?_cons_succ, hget, getElem?_eq_getElem hlt, Option.map_some,
      eq_of_mem_runTail k (getElem_mem hlt)]

/-- The key behind the first run, if there is any. -/
theorem key_behind_run (a : α) (l : List α) :
    ((a :: l)[(a :: runTail k a l).length]?).map k ≠ some (k a) := by
  have hhead := head?_dropWhile_not (fun b => k b == k a) l
  rw [length_cons, getElem?_cons_succ, ← head?_drop, drop_length_runTail]
  rcases hrest : (l.dropWhile fun b => k b == k a).head? with _ | b
  · exact fun h => nomatch h
  · rw [hrest] at hhead
    simpa using hhead

/-- A segment of constant key is a chain of the relation `runs` splits by. -/
theorem isChain_of_key_eq {c : κ} : ∀ {l : List α}, (∀ b ∈ l, k b = c) →
    l.IsChain fun x y => (k x == k y) = true
  | [], _ => .nil
  | [_], _ => .singleton _
  | a :: b :: l, h => by
      refine .cons_cons ?_ (isChain_of_key_eq fun x hx => h x (mem_cons_of_mem _ hx))
      simp [h a mem_cons_self, h b (mem_cons_of_mem _ mem_cons_self)]

/-- A nonempty segment of constant key, followed by another key, is a run. -/
theorem runs_append {c : κ} {r l : List α} (hne : r ≠ []) (hr : ∀ b ∈ r, k b = c)
    (hl : ∀ b ∈ l.head?, k b ≠ c) : runs k (r ++ l) = r :: runs k l := by
  have hsplit : (r ++ l).splitBy (fun a b => k a == k b)
      = r.splitBy (fun a b => k a == k b) ++ l.splitBy (fun a b => k a == k b) := by
    apply splitBy_append
    intro x hx y hy
    have hxk := hr x (mem_of_mem_getLast? hx)
    have hyk := hl y hy
    simpa [hxk] using fun h => hyk h.symm
  rw [runs, hsplit, splitBy_of_isChain hne (isChain_of_key_eq k hr)]
  rfl

/-- The first run, and the runs of the rest. -/
theorem runs_cons (a : α) (l : List α) :
    runs k (a :: l) = (a :: runTail k a l) :: runs k (l.drop (runTail k a l).length) := by
  have hcut : a :: l = (a :: runTail k a l) ++ l.dropWhile fun b => k b == k a := by
    simp [runTail]
  rw [drop_length_runTail]
  conv_lhs => rw [hcut]
  apply runs_append k (c := k a) (cons_ne_nil _ _)
  · intro b hb
    rcases mem_cons.mp hb with rfl | hb
    · rfl
    · exact eq_of_mem_runTail k hb
  · intro b hb
    have := head?_dropWhile_not (fun b => k b == k a) l
    rw [hb] at this
    simpa using this

/-- To start later makes no run longer. -/
theorem length_lt_of_mem_runs_tail {n : Nat} {a : α} {l : List α}
    (h : ∀ r ∈ runs k (a :: l), r.length < n) : ∀ r ∈ runs k l, r.length < n := by
  rw [runs_cons] at h
  rcases l with _ | ⟨b, l⟩
  · exact fun _ hr => nomatch hr
  · by_cases hkey : k b = k a
    · have htail : runTail k a (b :: l) = b :: runTail k b l := by
        rw [runTail, takeWhile_cons, hkey, beq_self_eq_true, if_pos rfl, runTail, hkey]
      rw [htail] at h
      rw [runs_cons]
      intro r hr
      rcases mem_cons.mp hr with rfl | hr
      · exact Nat.lt_of_succ_lt (h _ mem_cons_self)
      · exact h r (mem_cons_of_mem _ hr)
    · have htail : runTail k a (b :: l) = [] := by
        rw [runTail, takeWhile_cons, if_neg (by simpa using hkey)]
      rw [htail] at h
      exact fun r hr => h r (mem_cons_of_mem _ hr)

theorem length_lt_of_mem_runs_drop {n : Nat} : ∀ (m : Nat) {l : List α},
    (∀ r ∈ runs k l, r.length < n) → ∀ r ∈ runs k (l.drop m), r.length < n
  | 0, _, h => h
  | _ + 1, [], h => h
  | m + 1, _ :: _, h => length_lt_of_mem_runs_drop m (length_lt_of_mem_runs_tail k h)

/-! ## Functions that work run by run -/

variable {β : Type}

/-- A partial function that succeeds when it does on every run, and then with what it makes
of them. -/
def RunWise (f : List α → Option (List β)) : Prop :=
  ∀ l, f l = ((runs k l).mapM f).map flatten

/-- A map that succeeds everywhere, and what it makes of the list. -/
theorem mapM_eq_some_of_forall₂ {γ δ : Type} {f : γ → Option δ} {xs : List γ} {ys : List δ}
    (h : Forall₂ (fun x y => f x = some y) xs ys) : xs.mapM f = some ys := by
  induction h with
  | nil => rfl
  | cons hx _ ih => rw [mapM_cons, hx, ih]; rfl

theorem mapM_eq_none_of_mem {γ δ : Type} {f : γ → Option δ} {x : γ} (hx : f x = none) :
    ∀ {xs : List γ}, x ∈ xs → xs.mapM f = none
  | y :: ys, h => by
      rw [mapM_cons]
      rcases mem_cons.mp h with rfl | h
      · rw [hx]; rfl
      · rw [mapM_eq_none_of_mem hx h]
        cases f y <;> rfl

variable {k} {f : List α → Option (List β)}

theorem RunWise.eq_some (h : RunWise k f) {l : List α} {outs : List (List β)}
    (houts : Forall₂ (fun r out => f r = some out) (runs k l) outs) :
    f l = some outs.flatten := by
  rw [h l, mapM_eq_some_of_forall₂ houts]
  rfl

theorem RunWise.eq_none (h : RunWise k f) {l r : List α} (hr : r ∈ runs k l) (hnone : f r = none) :
    f l = none := by
  rw [h l, mapM_eq_none_of_mem hnone hr]
  rfl

/-- What works element by element works run by run. -/
theorem runWise_flatMap (g : α → List β) : RunWise k fun l => some (l.flatMap g) := by
  intro l
  have hall : Forall₂ (fun r out => some (r.flatMap g) = some out) (runs k l)
      ((runs k l).map (flatMap g)) :=
    forall₂_map_right_iff.mpr (forall₂_same.mpr fun _ _ => rfl)
  have hflat : ∀ ls : List (List α), (ls.map (flatMap g)).flatten = ls.flatten.flatMap g := by
    intro ls
    induction ls with
    | nil => rfl
    | cons r ls ih => rw [map_cons, flatten_cons, flatten_cons, flatMap_append, ih]
  rw [mapM_eq_some_of_forall₂ hall, Option.map_some, hflat, flatten_runs]

end List
