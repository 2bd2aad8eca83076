import Mathlib.Data.List.Infix

/-!
# Framing

A stream of packets, each a head of a fixed length that tells the length of the body behind it. The
packets of a stream are determined by its bytes, in whatever pieces these arrive.
-/

namespace Framing

variable {β : Type} {headLength : ℕ} {bodyLength : List β → ℕ}

/-- A head with a body of the length the head tells. -/
def Whole (headLength : ℕ) (bodyLength : List β → ℕ) (p : List β × List β) : Prop :=
  p.1.length = headLength ∧ p.2.length = bodyLength p.1

def bytes (p : List β × List β) : List β := p.1 ++ p.2

/-- No packet is at the front of these bytes. -/
def Short (headLength : ℕ) (bodyLength : List β → ℕ) (rest : List β) : Prop :=
  ∀ p, Whole headLength bodyLength p → ¬ bytes p <+: rest

theorem Whole.eq_of_prefix {p q : List β × List β} {l : List β} (hp : Whole headLength bodyLength p)
    (hq : Whole headLength bodyLength q) (hpl : bytes p <+: l) (hql : bytes q <+: l) : p = q := by
  obtain ⟨r, rfl⟩ := hpl
  obtain ⟨s, hs⟩ := hql
  unfold bytes at hs
  rw [List.append_assoc, List.append_assoc] at hs
  obtain ⟨hhead, hrest⟩ := List.append_inj hs (hq.1.trans hp.1.symm)
  obtain ⟨hbody, -⟩ := List.append_inj hrest (by rw [hp.2, hq.2, hhead])
  exact Prod.ext hhead.symm hbody.symm

theorem short_of_length_lt_head {rest : List β} (h : rest.length < headLength) :
    Short headLength bodyLength rest := by
  intro p hp hpre
  have := hpre.length_le
  rw [bytes, List.length_append, hp.1] at this
  omega

theorem short_of_length_lt_body {head rest : List β} (hhead : head.length = headLength)
    (h : rest.length < bodyLength head) : Short headLength bodyLength (head ++ rest) := by
  rintro ⟨h', b⟩ ⟨hlen, hb⟩ ⟨r, hr⟩
  rw [bytes, List.append_assoc] at hr
  obtain ⟨rfl, hrest⟩ := List.append_inj hr (hlen.trans hhead.symm)
  have hle := congrArg List.length hrest
  rw [List.length_append, hb] at hle
  omega

theorem frames_unique {ps qs : List (List β × List β)} {rest rest' : List β}
    (hps : ∀ p ∈ ps, Whole headLength bodyLength p) (hqs : ∀ q ∈ qs, Whole headLength bodyLength q)
    (hrest : Short headLength bodyLength rest) (hrest' : Short headLength bodyLength rest')
    (h : ps.flatMap bytes ++ rest = qs.flatMap bytes ++ rest') : ps = qs ∧ rest = rest' := by
  induction ps generalizing qs with
  | nil =>
    cases qs with
    | nil => exact ⟨rfl, h⟩
    | cons q qs =>
      refine absurd ⟨qs.flatMap bytes ++ rest', ?_⟩ (hrest q (hqs q List.mem_cons_self))
      rw [← List.append_assoc]
      exact h.symm
  | cons p ps ih =>
    cases qs with
    | nil =>
      refine absurd ⟨ps.flatMap bytes ++ rest, ?_⟩ (hrest' p (hps p List.mem_cons_self))
      rw [← List.append_assoc]
      exact h
    | cons q qs =>
      obtain ⟨hp, hps'⟩ := List.forall_mem_cons.mp hps
      obtain ⟨hq, hqs'⟩ := List.forall_mem_cons.mp hqs
      rw [List.flatMap_cons, List.flatMap_cons, List.append_assoc, List.append_assoc] at h
      obtain rfl := hp.eq_of_prefix hq ⟨_, rfl⟩ ⟨_, h.symm⟩
      obtain ⟨rfl, hr⟩ := ih hps' hqs' (List.append_cancel_left h)
      exact ⟨rfl, hr⟩

/-- Packets at the front of a stream of packets are the first ones of it. -/
theorem parts_of_front_bytes {ps qs : List (List β × List β)}
    (hps : ∀ p ∈ ps, Whole headLength bodyLength p) (hqs : ∀ q ∈ qs, Whole headLength bodyLength q)
    (hpos : 0 < headLength) (h : ps.flatMap bytes <+: qs.flatMap bytes) : ps <+: qs := by
  induction ps generalizing qs with
  | nil => exact List.nil_prefix
  | cons p ps ih =>
    obtain ⟨hp, hps⟩ := List.forall_mem_cons.mp hps
    cases qs with
    | nil =>
      have hnil := List.prefix_nil.mp h
      rw [List.flatMap_cons, bytes, List.append_assoc] at hnil
      have := hp.1
      rw [List.append_eq_nil_iff.mp hnil |>.1, List.length_nil] at this
      omega
    | cons q qs =>
      obtain ⟨hq, hqs'⟩ := List.forall_mem_cons.mp hqs
      rw [List.flatMap_cons, List.flatMap_cons] at h
      obtain rfl := hp.eq_of_prefix hq ((List.prefix_append _ _).trans h) (List.prefix_append _ _)
      exact (List.prefix_cons_inj p).mpr (ih hps hqs' ((List.prefix_append_right_inj _).mp h))

end Framing
