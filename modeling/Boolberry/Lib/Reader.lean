import Mathlib.Data.List.Basic

/-!
# Readers

A reader takes a value off the front of a list of tokens or fails. `Inverts` says
that it reads back what a writer wrote, whatever follows; `Exact` says that it
accepts nothing but what the writer writes, and `Yields` that the values it gives
are of a kind. All go through sequencing, so a reader of a record is treated field
by field.
-/

namespace Reading

variable {β α γ : Type}

/-- A reader of values of type `α` from tokens of type `β`. -/
abbrev Reader (β α : Type) := StateT (List β) Option α

namespace Reader

/-- The reader that always fails. -/
def fail : Reader β α := fun _ => none

/-- Take one token. -/
def token : Reader β β := fun l =>
  match l with
  | [] => none
  | c :: l => some (c, l)

/-- Read `k` values. -/
def times (r : Reader β α) : ℕ → Reader β (List α)
  | 0 => pure []
  | k + 1 => do
      let a ← r
      let l ← times r k
      return a :: l

/-- The whole input is one value. -/
def all (r : Reader β α) (l : List β) : Option α :=
  match r l with
  | some (a, []) => some a
  | _ => none

@[simp] theorem pure_apply (a : α) (l : List β) : (pure a : Reader β α) l = some (a, l) := rfl

@[simp] theorem fail_apply (l : List β) : (fail : Reader β α) l = none := rfl

@[simp] theorem token_cons (c : β) (l : List β) : token (c :: l) = some (c, l) := rfl

theorem bind_apply (r : Reader β α) (f : α → Reader β γ) (l : List β) :
    (r >>= f) l = (r l).bind fun x => f x.1 x.2 := rfl

theorem bind_of_eq {r : Reader β α} {f : α → Reader β γ} {l l' : List β} {a : α}
    (h : r l = some (a, l')) : (r >>= f) l = f a l' := by
  rw [bind_apply, h]
  rfl

theorem bind_eq_some {r : Reader β α} {f : α → Reader β γ} {l : List β} {x : γ × List β} :
    (r >>= f) l = some x ↔ ∃ a l', r l = some (a, l') ∧ f a l' = some x := by
  rw [bind_apply, Option.bind_eq_some_iff]
  constructor
  · rintro ⟨⟨a, l'⟩, h, h'⟩
    exact ⟨a, l', h, h'⟩
  · rintro ⟨a, l', h, h'⟩
    exact ⟨(a, l'), h, h'⟩

theorem pure_eq_some {a b : α} {l l' : List β} :
    (pure a : Reader β α) l = some (b, l') ↔ a = b ∧ l = l' := by
  rw [pure_apply, Option.some.injEq, Prod.mk.injEq]

theorem token_eq_some {c : β} {l l' : List β} : token l = some (c, l') ↔ l = c :: l' := by
  cases l with
  | nil => simp [token]
  | cons d l => simp [token]

theorem all_eq_some {r : Reader β α} {l : List β} {a : α} :
    r.all l = some a ↔ r l = some (a, []) := by
  unfold all
  rcases h : r l with _ | ⟨b, l'⟩
  · simp
  · cases l' <;> simp

end Reader

open Reader

/-- The reader reads back every value of `P` that the writer wrote. -/
def Inverts (r : Reader β α) (w : α → List β) (P : α → Prop) : Prop :=
  ∀ a, P a → ∀ rest, r (w a ++ rest) = some (a, rest)

/-- The reader accepts only what the writer writes. -/
def Exact (r : Reader β α) (w : α → List β) : Prop :=
  ∀ l a rest, r l = some (a, rest) → l = w a ++ rest

/-- Whatever the reader reads is in `P`. -/
def Yields (r : Reader β α) (P : α → Prop) : Prop := ∀ l a rest, r l = some (a, rest) → P a

/-- Whatever `r` reads, `r'` reads as well. -/
def Below (r r' : Reader β α) : Prop := ∀ l x, r l = some x → r' l = some x

theorem Below.refl (r : Reader β α) : Below r r := fun _ _ h => h

theorem Below.bind {r r' : Reader β α} {f f' : α → Reader β γ} (h : Below r r')
    (hf : ∀ a, Below (f a) (f' a)) : Below (r >>= f) (r' >>= f') := by
  intro l x hx
  obtain ⟨a, l', hr, hx⟩ := bind_eq_some.mp hx
  exact bind_eq_some.mpr ⟨a, l', h l _ hr, hf a l' x hx⟩

theorem Below.ite {r r' s s' : Reader β α} {p : Prop} [Decidable p] (h : Below r r')
    (hs : Below s s') : Below (if p then r else s) (if p then r' else s') := by
  split_ifs
  · exact h
  · exact hs

theorem Below.all {r r' : Reader β α} (h : Below r r') {l : List β} {a : α}
    (ha : r.all l = some a) : r'.all l = some a :=
  all_eq_some.mpr (h l _ (all_eq_some.mp ha))

theorem Inverts.all {r : Reader β α} {w : α → List β} {P : α → Prop} (h : Inverts r w P) {a : α}
    (ha : P a) : r.all (w a) = some a := by
  have := h a ha []
  rw [List.append_nil] at this
  exact all_eq_some.mpr this

theorem Exact.all {r : Reader β α} {w : α → List β} (h : Exact r w) {l : List β} {a : α}
    (ha : r.all l = some a) : l = w a := by
  have := h l a [] (all_eq_some.mp ha)
  rwa [List.append_nil] at this

theorem Yields.all {r : Reader β α} {P : α → Prop} (h : Yields r P) {l : List β} {a : α}
    (ha : r.all l = some a) : P a := h l a [] (all_eq_some.mp ha)

theorem Inverts.times {r : Reader β α} {w : α → List β} {P : α → Prop} (h : Inverts r w P)
    {as : List α} (has : ∀ a ∈ as, P a) (rest : List β) :
    r.times as.length (as.flatMap w ++ rest) = some (as, rest) := by
  induction as with
  | nil => rfl
  | cons a as ih =>
    rw [List.length_cons, Reader.times, List.flatMap_cons, List.append_assoc,
      bind_of_eq (h a (has a (by simp)) _), bind_of_eq (ih fun a' ha' => has a' (by simp [ha']))]
    rfl

theorem Exact.times {r : Reader β α} {w : α → List β} (h : Exact r w) {k : ℕ} {l rest : List β}
    {as : List α} (has : r.times k l = some (as, rest)) :
    as.length = k ∧ l = as.flatMap w ++ rest := by
  induction k generalizing l as with
  | zero =>
    obtain ⟨rfl, rfl⟩ := pure_eq_some.mp has
    simp
  | succ k ih =>
    obtain ⟨a, l₁, ha, has⟩ := bind_eq_some.mp has
    obtain ⟨as', l₂, has', hp⟩ := bind_eq_some.mp has
    obtain ⟨rfl, rfl⟩ := pure_eq_some.mp hp
    obtain rfl := h _ _ _ ha
    obtain ⟨hlen, rfl⟩ := ih has'
    exact ⟨by simp [hlen], by simp⟩

theorem Yields.times {r : Reader β α} {P : α → Prop} (h : Yields r P) {k : ℕ} {l rest : List β}
    {as : List α} (has : r.times k l = some (as, rest)) :
    as.length = k ∧ ∀ a ∈ as, P a := by
  induction k generalizing l as with
  | zero =>
    obtain ⟨rfl, rfl⟩ := pure_eq_some.mp has
    simp
  | succ k ih =>
    obtain ⟨a, l₁, ha, has⟩ := bind_eq_some.mp has
    obtain ⟨as', l₂, has', hp⟩ := bind_eq_some.mp has
    obtain ⟨rfl, rfl⟩ := pure_eq_some.mp hp
    obtain ⟨hlen, hPs⟩ := ih has'
    refine ⟨by simp [hlen], fun b hb => ?_⟩
    rcases List.mem_cons.mp hb with rfl | hb
    · exact h _ _ _ ha
    · exact hPs b hb

theorem Below.times {r r' : Reader β α} (h : Below r r') (k : ℕ) : Below (r.times k) (r'.times k) := by
  induction k with
  | zero => exact Below.refl _
  | succ k ih => exact h.bind fun _ => ih.bind fun _ => Below.refl _

end Reading
