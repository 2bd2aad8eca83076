import Mathlib.Data.List.Basic

/-!
# Reading a list block by block

A loop that takes blocks of `r` elements as long as a whole one is left, and one
that counts the whole blocks first, run over the same blocks and leave the same
rest. A code of blocks extends to lists, and is as exact on them as on blocks.
-/

namespace Blocks

variable {σ α : Type} (f : σ → List α → σ) (r : ℕ)

/-- `n` blocks, counted beforehand; `f` reads the first `r` elements of what is left. -/
def foldCount : ℕ → σ → List α → σ × List α
  | 0, s, l => (s, l)
  | n + 1, s, l => foldCount n (f s l) (l.drop r)

/-- Blocks as long as a whole one is left. -/
def foldWhile (hr : 0 < r) (s : σ) (l : List α) : σ × List α :=
  if r ≤ l.length then foldWhile hr (f s l) (l.drop r) else (s, l)
termination_by l.length
decreasing_by
  rw [List.length_drop]
  omega

theorem foldCount_snd (n : ℕ) (s : σ) (l : List α) : (foldCount f r n s l).2 = l.drop (n * r) := by
  induction n generalizing s l with
  | zero => simp [foldCount]
  | succ n ih =>
    rw [foldCount, ih, List.drop_drop]
    congr 1
    rw [Nat.succ_mul, Nat.add_comm]

theorem foldWhile_eq (hr : 0 < r) (s : σ) (l : List α) :
    foldWhile f r hr s l = foldCount f r (l.length / r) s l := by
  induction hn : l.length / r generalizing s l with
  | zero =>
    rw [foldWhile, if_neg]
    · rfl
    · rw [Nat.not_le]
      exact (Nat.div_eq_zero_iff_lt hr).mp hn
  | succ n ih =>
    have hle : r ≤ l.length := by
      by_contra h
      rw [Nat.div_eq_of_lt (Nat.lt_of_not_le h)] at hn
      omega
    have hdrop : (l.drop r).length / r = n := by
      rw [Nat.div_eq_sub_div hr hle] at hn
      rw [List.length_drop]
      omega
    rw [foldWhile, if_pos hle, foldCount, ih (f s l) (l.drop r) hdrop]

/-- Blocks that are read alike give the same result. -/
theorem foldCount_congr {g : σ → List α → σ} (h : ∀ s l, f s l = g s l) (n : ℕ) (s : σ)
    (l : List α) : foldCount f r n s l = foldCount g r n s l := by
  rw [show f = g from funext fun s => funext (h s)]

variable {β : Type}

/-- `n` blocks of `r` elements and what is left behind them, if anything, each by `g`. -/
def mapCount (g : List α → Option (List β)) (r : ℕ) : ℕ → List α → Option (List β)
  | 0, l => if l = [] then some [] else g l
  | n + 1, l => (g (l.take r)).bind fun e => (mapCount g r n (l.drop r)).map (e ++ ·)

/-- Blocks of `full` elements, and a last one that may have fewer, are written by `enc` and read by `dec`.
A block of `n` elements takes `size n`. -/
structure Code (enc : List α → Option (List β)) (dec : List β → Option (List α)) (full : ℕ)
    (size : ℕ → ℕ) : Prop where
  full_pos : 0 < full
  size_zero : size 0 = 0
  size_pos : ∀ n ≤ full, 0 < n → 0 < size n
  size_lt : ∀ n < full, size n < size full
  dec_enc : ∀ d : List α, d ≠ [] → d.length ≤ full →
    ∃ e, enc d = some e ∧ e.length = size d.length ∧ dec e = some d
  enc_dec : ∀ (e : List β) (d : List α), e ≠ [] → e.length ≤ size full → dec e = some d →
    d ≠ [] ∧ d.length ≤ full ∧ size d.length = e.length ∧ enc d = some e

namespace Code

variable {enc : List α → Option (List β)} {dec : List β → Option (List α)} {full : ℕ} {size : ℕ → ℕ}

/-- Blocks that are written are read back, as many as there were. -/
theorem dec_mapCount (h : Code enc dec full size) {n : ℕ} {d : List α} (hle : n * full ≤ d.length)
    (hlt : d.length < (n + 1) * full) :
    ∃ e, mapCount enc full n d = some e ∧ e.length = n * size full + size (d.length - n * full) ∧
      mapCount dec (size full) n e = some d := by
  induction n generalizing d with
  | zero =>
    rw [Nat.zero_mul, Nat.zero_mul, Nat.sub_zero, Nat.zero_add]
    by_cases hd : d = []
    · subst hd
      exact ⟨[], rfl, h.size_zero.symm, rfl⟩
    · obtain ⟨e, henc, hlen, hdec⟩ := h.dec_enc d hd (by omega)
      have hpos := h.size_pos d.length (by omega) (List.length_pos_of_ne_nil hd)
      have he : e ≠ [] := List.ne_nil_of_length_pos (by omega)
      exact ⟨e, by rw [mapCount, if_neg hd, henc], hlen, by rw [mapCount, if_neg he, hdec]⟩
  | succ n ih =>
    have hfull := h.full_pos
    rw [Nat.succ_mul] at hle hlt
    have htake : (d.take full).length = full := List.length_take_of_le (by omega)
    obtain ⟨e, henc, hlen, hdec⟩ := h.dec_enc (d.take full) (List.ne_nil_of_length_pos (by omega)) (Nat.le_of_eq htake)
    have hdrop := List.length_drop (i := full) (l := d)
    obtain ⟨es, hes, hlens, hdecs⟩ := @ih (d.drop full) (by omega) (by omega)
    rw [htake] at hlen
    refine ⟨e ++ es, ?_, ?_, ?_⟩
    · rw [mapCount, henc, Option.bind_some, hes, Option.map_some]
    · have hrest : d.length - full - n * full = d.length - (n + 1) * full := by
        rw [Nat.succ_mul]
        omega
      rw [List.length_append, hlen, hlens, hdrop, hrest, Nat.succ_mul n (size full)]
      omega
    · rw [mapCount, List.take_left' hlen, List.drop_left' hlen, hdec, Option.bind_some, hdecs,
        Option.map_some, List.take_append_drop]

/-- Blocks that are read are written back, as many as there were. -/
theorem enc_mapCount (h : Code enc dec full size) {n : ℕ} {e : List β} {d : List α}
    (hle : n * size full ≤ e.length) (hlt : e.length < (n + 1) * size full)
    (hdec : mapCount dec (size full) n e = some d) :
    n * full ≤ d.length ∧ d.length < (n + 1) * full ∧ mapCount enc full n d = some e := by
  have hfull := h.full_pos
  induction n generalizing e d with
  | zero =>
    rw [mapCount] at hdec
    split_ifs at hdec with he
    · obtain rfl := Option.some.inj hdec
      subst he
      exact ⟨by simp, by simpa using hfull, rfl⟩
    · obtain ⟨hd, hlen, hsize, henc⟩ := h.enc_dec e d he (by omega) hdec
      have hne : d.length ≠ full := by
        intro heq
        rw [heq] at hsize
        omega
      exact ⟨by omega, by omega, by rw [mapCount, if_neg hd, henc]⟩
  | succ n ih =>
    have hsizes := h.size_pos full (Nat.le_refl _) hfull
    rw [Nat.succ_mul] at hle hlt
    rw [mapCount, Option.bind_eq_some_iff] at hdec
    obtain ⟨b, hb, hdec⟩ := hdec
    obtain ⟨ds, hds, rfl⟩ := Option.map_eq_some_iff.mp hdec
    have htake : (e.take (size full)).length = size full := List.length_take_of_le (by omega)
    obtain ⟨-, hlen, hsize, henc⟩ :=
      h.enc_dec _ b (List.ne_nil_of_length_pos (by omega)) (Nat.le_of_eq htake) hb
    -- the only size of a whole block is that of a whole block
    have hwhole : b.length = full := by
      by_contra hne
      have := h.size_lt b.length (by omega)
      omega
    have hdrop := List.length_drop (i := size full) (l := e)
    obtain ⟨hle', hlt', hencs⟩ := ih (by omega) (by omega) hds
    refine ⟨?_, ?_, ?_⟩
    · rw [List.length_append, hwhole, Nat.succ_mul]
      omega
    · rw [List.length_append, hwhole, Nat.succ_mul]
      omega
    · rw [mapCount, List.take_left' hwhole, List.drop_left' hwhole, henc, Option.bind_some, hencs,
        Option.map_some, List.take_append_drop]

/-- What is written, counting the whole blocks first, is read, counting the whole blocks first. -/
theorem decode_encode (h : Code enc dec full size) (d : List α) :
    ∃ e, mapCount enc full (d.length / full) d = some e ∧
      e.length / size full = d.length / full ∧ e.length % size full = size (d.length % full) ∧
      mapCount dec (size full) (d.length / full) e = some d := by
  obtain ⟨e, henc, hlen, hdec⟩ := h.dec_mapCount (Nat.div_mul_le_self d.length full)
    (by rw [Nat.succ_mul]; exact Nat.lt_div_mul_add h.full_pos)
  have hmod : d.length - d.length / full * full = d.length % full := by
    have := Nat.div_add_mod' d.length full
    omega
  have hlt : size (d.length % full) < size full := h.size_lt _ (Nat.mod_lt _ h.full_pos)
  rw [hmod] at hlen
  refine ⟨e, henc, ?_, ?_, hdec⟩
  · rw [hlen, Nat.mul_comm, Nat.mul_add_div (by omega), Nat.div_eq_of_lt hlt, Nat.add_zero]
  · rw [hlen, Nat.mul_comm, Nat.mul_add_mod, Nat.mod_eq_of_lt hlt]

theorem encode_decode (h : Code enc dec full size) {e : List β} {d : List α}
    (hdec : mapCount dec (size full) (e.length / size full) e = some d) :
    mapCount enc full (d.length / full) d = some e := by
  have hsizes := h.size_pos full (Nat.le_refl _) h.full_pos
  obtain ⟨hle, hlt, henc⟩ := h.enc_mapCount (Nat.div_mul_le_self e.length (size full))
    (by rw [Nat.succ_mul]; exact Nat.lt_div_mul_add hsizes) hdec
  have hcount : d.length / full = e.length / size full :=
    Nat.div_eq_of_lt_le hle hlt
  rw [hcount]
  exact henc

end Code

end Blocks
