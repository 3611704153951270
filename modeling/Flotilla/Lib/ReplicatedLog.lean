/-
  Lib.ReplicatedLog — leader-based log replication, in the abstract.

  Nothing here knows about messages, snapshots or storage.  A `History` records
  what a leader-based protocol has done so far: the term and the log of every
  node, the log of every elected leader, who voted for whom with which log, and
  how much of a leader's log every node has acknowledged.  Five moves extend it:

    raiseTerm  — a node enters a later term
    castVote   — a node votes in its current, still leaderless term
    elect      — a majority of votes makes a node the leader of its term
    extend     — the leader appends one entry of its own term
    accept     — a node takes over a piece `X` of its leader's log

  `accept` is the whole of replication: the new log is `merge log X`, the old
  log when it already contains `X`, and `X` otherwise.

  Every move keeps the invariant `Sound`, which has log matching (`Sound.agree`)
  and leader completeness (`Sound.leader_completeness`).
-/
import Flotilla.Lib.Positions

namespace Flotilla.ReplicatedLog

variable {N E : Type}

/-! ## Majorities. -/

/-- `Q` holds more than half of the members. -/
def Majority (M Q : Finset N) : Prop := Q ⊆ M ∧ M.card / 2 + 1 ≤ Q.card

theorem Majority.exists_common [DecidableEq N] {M Q R : Finset N}
    (hQ : Majority M Q) (hR : Majority M R) : ∃ p, p ∈ Q ∧ p ∈ R := by
  by_contra h
  push Not at h
  have hdisj : Disjoint Q R := Finset.disjoint_left.mpr h
  have hcard : (Q ∪ R).card = Q.card + R.card := Finset.card_union_of_disjoint hdisj
  have hsub : (Q ∪ R).card ≤ M.card := Finset.card_le_card (Finset.union_subset hQ.1 hR.1)
  have hq := hQ.2
  have hr := hR.2
  omega

theorem Majority.exists_mem {M Q : Finset N} (hQ : Majority M Q) : ∃ p, p ∈ Q := by
  have hpos : 0 < Q.card := lt_of_lt_of_le (Nat.succ_pos _) hQ.2
  exact Finset.card_pos.mp hpos

/-! ## Merging a piece of the leader's log. -/

open Classical in
/-- The log after taking over `x`: unchanged when it already contains `x`. -/
noncomputable def merge (l x : List E) : List E := if x <+: l then l else x

variable {l x L : List E} {n : ℕ}

theorem merge_eq_left (h : x <+: l) : merge l x = l := if_pos h

theorem merge_eq_right (h : ¬ x <+: l) : merge l x = x := if_neg h

theorem prefix_merge (l x : List E) : x <+: merge l x := by
  by_cases h : x <+: l
  · rw [merge_eq_left h]; exact h
  · rw [merge_eq_right h]

theorem prefix_merge_of_common {y : List E} (hyl : y <+: l) (hyL : y <+: L) (hxL : x <+: L) :
    y <+: merge l x := by
  by_cases h : x <+: l
  · rw [merge_eq_left h]; exact hyl
  · rw [merge_eq_right h]
    rcases List.prefix_or_prefix_of_prefix hyL hxL with hyx | hxy
    · exact hyx
    · exact absurd (hxy.trans hyl) h

theorem prefix_take_eq (h : l <+: L) (hn : n ≤ l.length) :
    L.take n = l.take n := by
  obtain ⟨s, rfl⟩ := h
  rw [List.take_append_of_le_length hn]

theorem take_prefix_of_le (h : l <+: L) (hn : n ≤ l.length) :
    L.take n <+: l := by
  rw [prefix_take_eq h hn]; exact List.take_prefix _ _

section

variable (tm : E → ℕ)

/-- The term of the entry at 1-based index `i`; 0 at index 0 and past the end. -/
def termOf (l : List E) : ℕ → ℕ
  | 0 => 0
  | i + 1 => (l[i]?.map tm).getD 0

/-- `a` is at least as up to date as `b`: later last term, or same last term and
no shorter. -/
def UpToDate (a b : List E) : Prop :=
  termOf tm b b.length < termOf tm a a.length ∨
    (termOf tm a a.length = termOf tm b b.length ∧ b.length ≤ a.length)

variable {l : List E}

theorem termOf_succ_of_getElem? {i : ℕ} {e : E} (h : l[i]? = some e) :
    termOf tm l (i + 1) = tm e := by
  simp [termOf, h]

theorem prefix_termOf {L : List E} {n : ℕ} (h : l <+: L) (hn : n ≤ l.length) :
    termOf tm L n = termOf tm l n := by
  cases n with
  | zero => rfl
  | succ i =>
    have hi : i < l.length := hn
    have hl : l[i]? = some l[i] := List.getElem?_eq_getElem hi
    rw [termOf_succ_of_getElem? tm hl, termOf_succ_of_getElem? tm (getElem?_of_isPrefix h hl)]

theorem exists_last (h : l ≠ []) :
    ∃ e, l[l.length - 1]? = some e ∧ termOf tm l l.length = tm e := by
  have hlen : 0 < l.length := List.length_pos_iff.mpr h
  obtain ⟨k, hk⟩ : ∃ k, l.length = k + 1 := ⟨l.length - 1, by omega⟩
  obtain ⟨e, he⟩ : ∃ e, l[k]? = some e := ⟨_, List.getElem?_eq_getElem (by omega)⟩
  refine ⟨e, by rw [hk]; exact he, ?_⟩
  rw [hk]
  exact termOf_succ_of_getElem? tm he

end

/-! ## Histories. -/

/-- What a leader-based protocol has done so far. -/
structure History (N E : Type) where
  /-- Current term of every node. -/
  term : N → ℕ
  /-- Current log of every node. -/
  log : N → List E
  /-- Terms that have elected a leader. -/
  led : ℕ → Prop
  /-- The leader's log at its election. -/
  ilog : ℕ → List E
  /-- The leader's log, as far as it ever got. -/
  llog : ℕ → List E
  /-- The voters of an elected leader. -/
  voters : ℕ → Finset N
  /-- Votes cast in a term before it had a leader, and the voter's log then. -/
  voted : ℕ → N → Prop
  vlog : ℕ → N → List E
  /-- How much of the term's leader log a node has acknowledged. -/
  ack : ℕ → N → ℕ

/-- `H'` is a later history than `H`. -/
structure History.Extends (H H' : History N E) : Prop where
  term : ∀ p, H.term p ≤ H'.term p
  led : ∀ t, H.led t → H'.led t
  ilog : ∀ t, H.led t → H'.ilog t = H.ilog t
  llog : ∀ t, H.led t → H.llog t <+: H'.llog t
  ack : ∀ t p, H.ack t p ≤ H'.ack t p
  voted : ∀ t p, H.voted t p → H'.voted t p
  vlog : ∀ t p, H.voted t p → H'.vlog t p = H.vlog t p

namespace History

theorem Extends.refl (H : History N E) : H.Extends H :=
  ⟨fun _ => le_rfl, fun _ h => h, fun _ _ => rfl, fun _ _ => List.prefix_rfl, fun _ _ => le_rfl,
    fun _ _ h => h, fun _ _ _ => rfl⟩

theorem Extends.trans {H H' H'' : History N E} (h : H.Extends H') (h' : H'.Extends H'') :
    H.Extends H'' where
  term p := (h.term p).trans (h'.term p)
  led t ht := h'.led t (h.led t ht)
  ilog t ht := (h'.ilog t (h.led t ht)).trans (h.ilog t ht)
  llog t ht := (h.llog t ht).trans (h'.llog t (h.led t ht))
  ack t p := (h.ack t p).trans (h'.ack t p)
  voted t p hv := h'.voted t p (h.voted t p hv)
  vlog t p hv := (h'.vlog t p (h.voted t p hv)).trans (h.vlog t p hv)

/-- Acknowledgements of term `t` up to `n` are overruled: some leader of a term
in `(t, b)` was elected without them. -/
def Lost (H : History N E) (t n b : ℕ) : Prop :=
  ∃ u, t < u ∧ u < b ∧ H.led u ∧ ¬ (H.llog t).take n <+: H.ilog u

end History

variable (tm : E → ℕ)

/-- Every entry of `l` was created by the leader of its term, at that index of
that leader's log, after the same entries. -/
def Owned (H : History N E) (l : List E) : Prop :=
  ∀ i e, l[i]? = some e → H.led (tm e) ∧ l.take (i + 1) <+: H.llog (tm e)

/-- The invariant of all five moves. -/
structure Sound (M : Finset N) (H : History N E) : Prop where
  owned_log : ∀ p, Owned tm H (H.log p)
  owned_llog : ∀ t, H.led t → Owned tm H (H.llog t)
  ilog_lt : ∀ t, H.led t → ∀ e ∈ H.ilog t, tm e < t
  split : ∀ t, H.led t → ∃ own, H.llog t = H.ilog t ++ own ∧ ∀ e ∈ own, tm e = t
  term_le : ∀ p, ∀ e ∈ H.log p, tm e ≤ H.term p
  ack_led : ∀ t p, 0 < H.ack t p → H.led t ∧ t ≤ H.term p
  ack_le : ∀ t p, H.ack t p ≤ (H.llog t).length
  kept : ∀ t p n, n ≤ H.ack t p →
    (H.llog t).take n <+: H.log p ∨ H.Lost t n (H.term p + 1)
  voted_le : ∀ t p, H.voted t p → t ≤ H.term p
  vote_owned : ∀ t p, H.voted t p → Owned tm H (H.vlog t p)
  vote_kept : ∀ t' p, H.voted t' p → ∀ t n, t < t' → n ≤ H.ack t p →
    (H.llog t).take n <+: H.vlog t' p ∨ H.Lost t n t'
  elected : ∀ t, H.led t → Majority M (H.voters t) ∧
    ∀ v ∈ H.voters t, H.voted t v ∧ UpToDate tm (H.ilog t) (H.vlog t v)

variable {tm} {M : Finset N} {H H' : History N E}

/-! ## Log matching. -/

theorem Owned.restrict (h : Owned tm H l) (hx : x <+: l) : Owned tm H x := by
  intro i e hi
  obtain ⟨hled, hpre⟩ := h i e (getElem?_of_isPrefix hx hi)
  have hlt : i < x.length := (List.getElem?_eq_some_iff.mp hi).1
  rw [prefix_take_eq hx hlt] at hpre
  exact ⟨hled, hpre⟩

theorem Owned.mono (h : Owned tm H l) (hE : H.Extends H') : Owned tm H' l := by
  intro i e hi
  obtain ⟨hled, hpre⟩ := h i e hi
  exact ⟨hE.led _ hled, hpre.trans (hE.llog _ hled)⟩

theorem Owned.concat {e : E} (hl : Owned tm H l) (hled : H.led (tm e))
    (hpre : l ++ [e] <+: H.llog (tm e)) : Owned tm H (l ++ [e]) := by
  intro i f hi
  by_cases hlt : i < l.length
  · rw [List.getElem?_append_left hlt] at hi
    rw [List.take_append_of_le_length hlt]
    exact hl i f hi
  · have hlen : i < (l ++ [e]).length := (List.getElem?_eq_some_iff.mp hi).1
    simp only [List.length_append, List.length_singleton] at hlen
    obtain rfl : i = l.length := by omega
    simp only [List.getElem?_concat_length, Option.some.injEq] at hi
    subst hi
    rw [List.take_of_length_le (by simp)]
    exact ⟨hled, hpre⟩

theorem Owned.agree {l' : List E} (h : Owned tm H l) (h' : Owned tm H l') {i : ℕ} {e e' : E}
    (he : l[i]? = some e) (he' : l'[i]? = some e') (hterm : tm e = tm e') :
    l.take (i + 1) = l'.take (i + 1) := by
  obtain ⟨_, hp⟩ := h i e he
  obtain ⟨_, hp'⟩ := h' i e' he'
  rw [← hterm] at hp'
  have hlt : i < l.length := (List.getElem?_eq_some_iff.mp he).1
  have hlt' : i < l'.length := (List.getElem?_eq_some_iff.mp he').1
  have hlen : (l.take (i + 1)).length = (l'.take (i + 1)).length := by
    rw [List.length_take, List.length_take]; omega
  exact (List.prefix_of_prefix_length_le hp hp' hlen.le).eq_of_length hlen

theorem Owned.prefix_last (hl : Owned tm H l) (hne : l ≠ []) :
    H.led (termOf tm l l.length) ∧ l <+: H.llog (termOf tm l l.length) := by
  obtain ⟨e, he, hterm⟩ := exists_last tm hne
  obtain ⟨hled, hpre⟩ := hl _ e he
  have hlen : 0 < l.length := List.length_pos_iff.mpr hne
  have hs : l.length - 1 + 1 = l.length := by omega
  rw [hs, List.take_length] at hpre
  rw [hterm]
  exact ⟨hled, hpre⟩

namespace Sound

variable {t : ℕ} {e : E}

theorem ilog_prefix_llog (h : Sound tm M H) (ht : H.led t) : H.ilog t <+: H.llog t := by
  obtain ⟨own, heq, _⟩ := h.split t ht
  exact ⟨own, heq.symm⟩

theorem llog_term_le (h : Sound tm M H) (ht : H.led t) (he : e ∈ H.llog t) :
    tm e ≤ t := by
  obtain ⟨own, heq, hown⟩ := h.split t ht
  rw [heq, List.mem_append] at he
  rcases he with he | he
  · exact (h.ilog_lt t ht e he).le
  · exact (hown e he).le

theorem ilog_length_le (h : Sound tm M H) {i : ℕ} (ht : H.led t) (he : (H.llog t)[i]? = some e)
    (hterm : tm e = t) : (H.ilog t).length ≤ i := by
  by_contra hlt
  push Not at hlt
  have hpre := h.ilog_prefix_llog ht
  have hi : (H.ilog t)[i]? = some (H.ilog t)[i] := List.getElem?_eq_getElem hlt
  have heq : some e = some (H.ilog t)[i] := by rw [← he]; exact getElem?_of_isPrefix hpre hi
  have hmem : e ∈ H.ilog t := by
    rw [Option.some.inj heq]; exact List.getElem_mem hlt
  have := h.ilog_lt t ht e hmem
  omega

theorem term_mono (h : Sound tm M H) {l : List E} (hl : Owned tm H l) {i j : ℕ} {f : E}
    (hij : i ≤ j) (he : l[i]? = some e) (hf : l[j]? = some f) : tm e ≤ tm f := by
  obtain ⟨hled, hpre⟩ := hl j f hf
  have he' : (l.take (j + 1))[i]? = some e := by
    rw [List.getElem?_take_of_lt (by omega)]; exact he
  have hmem : e ∈ H.llog (tm f) := List.mem_of_getElem? (getElem?_of_isPrefix hpre he')
  exact h.llog_term_le hled hmem

end Sound

/-! ## Leader completeness. -/

section

variable (tm M H)

/-- Index `n` of the term-`t` leader log holds an entry of term `t`, and a
majority has acknowledged it. -/
def Committed (t n : ℕ) : Prop :=
  0 < n ∧ termOf tm (H.llog t) n = t ∧ H.led t ∧ ∃ Q, Majority M Q ∧ ∀ p ∈ Q, n ≤ H.ack t p

end

variable {t : ℕ}

theorem Committed.le_length (h : Sound tm M H) (hc : Committed tm M H t n) :
    n ≤ (H.llog t).length := by
  obtain ⟨_, _, _, Q, hQ, hack⟩ := hc
  obtain ⟨p, hp⟩ := hQ.exists_mem
  exact (hack p hp).trans (h.ack_le t p)

theorem Committed.exists_entry (h : Sound tm M H) (hc : Committed tm M H t n) :
    ∃ k e, n = k + 1 ∧ (H.llog t)[k]? = some e ∧ tm e = t := by
  have hle := hc.le_length h
  obtain ⟨hpos, hterm, _⟩ := hc
  obtain ⟨k, rfl⟩ : ∃ k, n = k + 1 := ⟨n - 1, by omega⟩
  obtain ⟨e, he⟩ : ∃ e, (H.llog t)[k]? = some e := ⟨_, List.getElem?_eq_getElem hle⟩
  refine ⟨k, e, rfl, he, ?_⟩
  rw [← termOf_succ_of_getElem? tm he, hterm]

theorem Committed.mono (h : Sound tm M H) (hE : H.Extends H') (hc : Committed tm M H t n) :
    Committed tm M H' t n := by
  have hle := hc.le_length h
  obtain ⟨hpos, hterm, hled, Q, hQ, hack⟩ := hc
  refine ⟨hpos, ?_, hE.led t hled, Q, hQ, fun p hp => (hack p hp).trans (hE.ack t p)⟩
  rw [prefix_termOf tm (hE.llog t hled) hle]
  exact hterm

namespace Sound

theorem prefix_of_upToDate (h : Sound tm M H) {t n t' : ℕ} {a b : List E}
    (hc : Committed tm M H t n) (ha : Owned tm H a) (hb : Owned tm H b)
    (hbt : ∀ e ∈ a, tm e < t') (hup : UpToDate tm a b) (hpre : (H.llog t).take n <+: b)
    (ih : ∀ u, t < u → u < t' → H.led u → (H.llog t).take n <+: H.ilog u) :
    (H.llog t).take n <+: a := by
  have hnle := hc.le_length h
  obtain ⟨k, e, rfl, hk, hterm⟩ := hc.exists_entry h
  have hlenX : ((H.llog t).take (k + 1)).length = k + 1 := by
    rw [List.length_take]; omega
  have hblen : k + 1 ≤ b.length := by rw [← hlenX]; exact hpre.length_le
  -- the last term of `b` is at least `t`, hence so is the last term of `a`
  have hbk : b[k]? = some e := by
    apply getElem?_of_isPrefix hpre
    rw [List.getElem?_take_of_lt (by omega)]; exact hk
  have hbne : b ≠ [] := by
    intro hnil
    rw [hnil] at hblen
    cases hblen
  obtain ⟨f, hf, hflast⟩ := exists_last tm hbne
  have htb : t ≤ termOf tm b b.length := by
    rw [hflast, ← hterm]
    exact h.term_mono hb (by omega) hbk hf
  have hta : t ≤ termOf tm a a.length := by
    rcases hup with hlt | ⟨heq, _⟩
    · omega
    · omega
  by_cases hane : a = []
  · -- then both last terms are 0, and `b` is no longer than `a`
    subst hane
    rcases hup with hlt | ⟨_, hlen⟩
    · exact absurd hlt (by simp [termOf])
    · simp only [List.length_nil] at hlen; omega
  obtain ⟨hledA, hpreA⟩ := ha.prefix_last hane
  obtain ⟨g, hg, hglast⟩ := exists_last tm hane
  have hgt : termOf tm a a.length < t' := by
    rw [hglast]; exact hbt g (List.mem_of_getElem? hg)
  by_cases hcase : termOf tm a a.length = t
  · -- both logs end in term `t`: `a` is a piece of that leader's log, at least as long as `b`
    rcases hup with hlt | ⟨_, hlen⟩
    · omega
    · rw [hcase] at hpreA
      have := hblen.trans hlen
      exact take_prefix_of_le hpreA this
  · -- `a` ends in a later term, whose leader was elected with the piece
    have hu : t < termOf tm a a.length := by omega
    have hX := ih _ hu hgt hledA
    have hilen : (H.ilog (termOf tm a a.length)).length ≤ a.length - 1 := by
      apply h.ilog_length_le hledA (e := g) _ hglast.symm
      exact getElem?_of_isPrefix hpreA hg
    have hXL := hX.trans (h.ilog_prefix_llog hledA)
    apply List.prefix_of_prefix_length_le hXL hpreA
    have := hX.length_le
    omega

theorem leader_completeness [DecidableEq N] (h : Sound tm M H) {t n : ℕ}
    (hc : Committed tm M H t n) {t' : ℕ} (hlt : t < t') (hled : H.led t') :
    (H.llog t).take n <+: H.ilog t' := by
  induction t' using Nat.strong_induction_on with
  | _ t' ih =>
    obtain ⟨Q, hQ, hack⟩ := hc.2.2.2
    obtain ⟨hV, hvoted⟩ := h.elected t' hled
    obtain ⟨v, hvQ, hvV⟩ := hQ.exists_common hV
    obtain ⟨hvote, hup⟩ := hvoted v hvV
    have hkept := h.vote_kept t' v hvote t n hlt (hack v hvQ)
    have ih' : ∀ u, t < u → u < t' → H.led u → (H.llog t).take n <+: H.ilog u :=
      fun u htu hut' hledu => ih u hut' htu hledu
    have hpre : (H.llog t).take n <+: H.vlog t' v := by
      rcases hkept with hpre | ⟨u, htu, hut', hledu, hnot⟩
      · exact hpre
      · exact absurd (ih' u htu hut' hledu) hnot
    have hown : Owned tm H (H.ilog t') := (h.owned_llog t' hled).restrict (h.ilog_prefix_llog hled)
    exact h.prefix_of_upToDate hc hown (h.vote_owned t' v hvote) (h.ilog_lt t' hled) hup hpre ih'

end Sound

section

variable (tm M H)

/-- `l` lies inside a piece that was committed in a term `≤ b`. -/
def CommittedBy (b : ℕ) (l : List E) : Prop :=
  l = [] ∨ ∃ t n, t ≤ b ∧ Committed tm M H t n ∧ l <+: (H.llog t).take n

end

namespace CommittedBy

variable {b b' : ℕ} {l l' x : List E}

theorem mono (h : Sound tm M H) (hE : H.Extends H') (hb : b ≤ b')
    (hc : CommittedBy tm M H b l) : CommittedBy tm M H' b' l := by
  rcases hc with hnil | ⟨t, n, ht, hcom, hl⟩
  · exact .inl hnil
  · refine .inr ⟨t, n, ht.trans hb, hcom.mono h hE, ?_⟩
    rw [prefix_take_eq (hE.llog t hcom.2.2.1) (hcom.le_length h)]
    exact hl

theorem restrict (hc : CommittedBy tm M H b l) (hx : x <+: l) : CommittedBy tm M H b x := by
  rcases hc with hnil | ⟨t, n, ht, hcom, hl⟩
  · rw [hnil] at hx
    exact .inl (List.prefix_nil.mp hx)
  · exact .inr ⟨t, n, ht, hcom, hx.trans hl⟩

variable [DecidableEq N]

theorem prefix_llog (h : Sound tm M H) (hc : CommittedBy tm M H b l) {t' : ℕ} (hb : b ≤ t')
    (hled : H.led t') : l <+: H.llog t' := by
  rcases hc with hnil | ⟨t, n, ht, hcom, hl⟩
  · rw [hnil]; exact List.nil_prefix
  · rcases Nat.lt_or_ge t t' with hlt | hge
    · exact hl.trans ((h.leader_completeness hcom hlt hled).trans (h.ilog_prefix_llog hled))
    · obtain rfl : t = t' := by omega
      exact hl.trans (List.take_prefix _ _)

theorem comparable (h : Sound tm M H) (hc : CommittedBy tm M H b l)
    (hc' : CommittedBy tm M H b' l') : l <+: l' ∨ l' <+: l := by
  rcases hc with hnil | ⟨t, n, ht, hcom, hl⟩
  · rw [hnil]; exact .inl List.nil_prefix
  rcases hc' with hnil' | ⟨t', n', ht', hcom', hl'⟩
  · rw [hnil']; exact .inr List.nil_prefix
  -- both are pieces of the log of the later of the two leaders
  have hcl : CommittedBy tm M H t l := .inr ⟨t, n, le_rfl, hcom, hl⟩
  have hcl' : CommittedBy tm M H t' l' := .inr ⟨t', n', le_rfl, hcom', hl'⟩
  rcases Nat.le_total t t' with hle | hle
  · have hled := hcom'.2.2.1
    exact List.prefix_or_prefix_of_prefix (hcl.prefix_llog h hle hled)
      (hcl'.prefix_llog h le_rfl hled)
  · have hled := hcom.2.2.1
    exact List.prefix_or_prefix_of_prefix (hcl.prefix_llog h le_rfl hled)
      (hcl'.prefix_llog h hle hled)

end CommittedBy

/-! ## The empty history. -/

def History.empty : History N E where
  term := fun _ => 0
  log := fun _ => []
  led := fun _ => False
  ilog := fun _ => []
  llog := fun _ => []
  voters := fun _ => ∅
  voted := fun _ _ => False
  vlog := fun _ _ => []
  ack := fun _ _ => 0

theorem Sound.empty : Sound tm M (History.empty : History N E) where
  owned_log _ i e hi := absurd hi (by simp [History.empty])
  owned_llog _ h := h.elim
  ilog_lt _ h := h.elim
  split _ h := h.elim
  term_le _ _ he := absurd he List.not_mem_nil
  ack_led _ _ h := absurd h (Nat.lt_irrefl 0)
  ack_le _ _ := Nat.le_refl 0
  kept _ _ _ _ := .inl (by simp [History.empty])
  voted_le _ _ h := h.elim
  vote_owned _ _ h := h.elim
  vote_kept _ _ h := h.elim
  elected _ h := h.elim

/-! ## The five moves. -/

namespace History

variable [DecidableEq N] (H)

def raiseTerm (p : N) (t : ℕ) : History N E := { H with term := Function.update H.term p t }

def castVote (p : N) : History N E :=
  { H with
    voted := fun t q => H.voted t q ∨ (t = H.term p ∧ q = p)
    vlog := fun t q => if t = H.term p ∧ q = p then H.log p else H.vlog t q }

/-- The votes of `V` make `p` the leader of its term. -/
def elect (p : N) (V : Finset N) : History N E :=
  { H with
    led := fun u => H.led u ∨ u = H.term p
    ilog := Function.update H.ilog (H.term p) (H.log p)
    llog := Function.update H.llog (H.term p) (H.log p)
    voters := Function.update H.voters (H.term p) V }

def extend (p : N) (e : E) : History N E :=
  { H with
    llog := Function.update H.llog (H.term p) (H.log p ++ [e])
    log := Function.update H.log p (H.log p ++ [e])
    ack := fun u q => if u = H.term p ∧ q = p then (H.log p).length + 1 else H.ack u q }

/-- `p` takes over the piece `x` of its leader's log and acknowledges it. -/
noncomputable def accept (p : N) (x : List E) : History N E :=
  { H with
    log := Function.update H.log p (merge (H.log p) x)
    ack := fun u q => if u = H.term p ∧ q = p then max (H.ack u q) x.length else H.ack u q }

variable {H}

variable {p : N}

theorem extends_raiseTerm {t : ℕ} (h : H.term p ≤ t) : H.Extends (H.raiseTerm p t) :=
  { Extends.refl H with
    term := fun q => by
      by_cases hq : q = p
      · subst hq; simpa [raiseTerm] using h
      · simp [raiseTerm, hq] }

theorem extends_castVote (h : ¬ H.voted (H.term p) p) : H.Extends (H.castVote p) :=
  { Extends.refl H with
    voted := fun _ _ hv => .inl hv
    vlog := fun t q hv => by
      have hne : ¬ (t = H.term p ∧ q = p) := by
        rintro ⟨rfl, rfl⟩; exact h hv
      simp [castVote, hne] }

omit [DecidableEq N] in
theorem extends_elect {V : Finset N} (hled : ¬ H.led (H.term p)) :
    H.Extends (H.elect p V) :=
  { Extends.refl H with
    led := fun _ hu => .inl hu
    ilog := fun u hu => by
      have hne : u ≠ H.term p := by rintro rfl; exact hled hu
      simp [elect, hne]
    llog := fun u hu => by
      have hne : u ≠ H.term p := by rintro rfl; exact hled hu
      simp [elect, hne] }

theorem extends_extend {e : E} (hlog : H.log p = H.llog (H.term p))
    (hack : H.ack (H.term p) p ≤ (H.log p).length) : H.Extends (H.extend p e) :=
  { Extends.refl H with
    llog := fun u _ => by
      by_cases hu : u = H.term p
      · subst hu; simp [extend, hlog]
      · simp [extend, hu]
    ack := fun u q => by
      by_cases hc : u = H.term p ∧ q = p
      · obtain ⟨rfl, rfl⟩ := hc; simp [extend]; omega
      · simp [extend, hc] }

theorem extends_accept (H : History N E) (p : N) (x : List E) : H.Extends (H.accept p x) :=
  { Extends.refl H with
    ack := fun u q => by
      by_cases hc : u = H.term p ∧ q = p
      · simp [accept, hc]
      · simp [accept, hc] }

end History

namespace Sound

variable {n t : ℕ} {p : N}

section

variable (h : Sound tm M H) (hE : H.Extends H')

include h hE

theorem take_llog_mono (hn : n ≤ H.ack t p) : (H'.llog t).take n = (H.llog t).take n := by
  by_cases hz : n = 0
  · subst hz; simp
  · have hled := (h.ack_led t p (by omega)).1
    exact prefix_take_eq (hE.llog t hled) (hn.trans (h.ack_le t p))

theorem lost_mono {b b' : ℕ} (hn : n ≤ H.ack t p)
    (hb : b ≤ b') (hl : H.Lost t n b) : H'.Lost t n b' := by
  obtain ⟨u, htu, hub, hled, hnot⟩ := hl
  refine ⟨u, htu, by omega, hE.led u hled, ?_⟩
  rw [h.take_llog_mono hE hn, hE.ilog u hled]
  exact hnot

theorem kept_mono (hn : n ≤ H.ack t p)
    (hlog : (H.llog t).take n <+: H.log p → (H.llog t).take n <+: H'.log p) :
    (H'.llog t).take n <+: H'.log p ∨ H'.Lost t n (H'.term p + 1) := by
  rcases h.kept t p n hn with hpre | hlost
  · rw [h.take_llog_mono hE hn]
    exact .inl (hlog hpre)
  · exact .inr (h.lost_mono hE hn (Nat.succ_le_succ (hE.term p)) hlost)

theorem vote_kept_mono {t' : ℕ} (hv : H.voted t' p) (hlt : t < t') (hn : n ≤ H.ack t p) :
    (H'.llog t).take n <+: H'.vlog t' p ∨ H'.Lost t n t' := by
  rw [h.take_llog_mono hE hn, hE.vlog t' p hv]
  rcases h.vote_kept t' p hv t n hlt hn with hpre | hlost
  · exact .inl hpre
  · exact .inr (h.lost_mono hE hn le_rfl hlost)

theorem elected_mono (ht : H.led t) :
    Majority M (H.voters t) ∧
      ∀ v ∈ H.voters t, H'.voted t v ∧ UpToDate tm (H'.ilog t) (H'.vlog t v) := by
  obtain ⟨hmaj, hv⟩ := h.elected t ht
  refine ⟨hmaj, fun v hvm => ⟨hE.voted t v (hv v hvm).1, ?_⟩⟩
  rw [hE.ilog t ht, hE.vlog t v (hv v hvm).1]
  exact (hv v hvm).2

end

theorem ack_eq_zero (h : Sound tm M H) (ht : ¬ H.led t) (p : N) : H.ack t p = 0 := by
  by_contra hne
  exact ht (h.ack_led t p (Nat.pos_of_ne_zero hne)).1

variable [DecidableEq N]

theorem raiseTerm (h : Sound tm M H) (hle : H.term p ≤ t) :
    Sound tm M (H.raiseTerm p t) := by
  have hE := History.extends_raiseTerm hle
  exact { h with
    owned_log := fun q => (h.owned_log q).mono hE
    owned_llog := fun u hu => (h.owned_llog u hu).mono hE
    term_le := fun q e he => (h.term_le q e he).trans (hE.term q)
    ack_led := fun u q hq => ⟨(h.ack_led u q hq).1, (h.ack_led u q hq).2.trans (hE.term q)⟩
    kept := fun u q n hn => h.kept_mono hE hn id
    voted_le := fun u q hq => (h.voted_le u q hq).trans (hE.term q)
    vote_owned := fun u q hq => (h.vote_owned u q hq).mono hE }

theorem castVote (h : Sound tm M H) (hnot : ¬ H.voted (H.term p) p) (hled : ¬ H.led (H.term p)) :
    Sound tm M (H.castVote p) := by
  have hE := History.extends_castVote hnot
  refine { h with
    owned_log := fun q => (h.owned_log q).mono hE
    owned_llog := fun u hu => (h.owned_llog u hu).mono hE
    voted_le := ?_
    vote_owned := ?_
    vote_kept := ?_
    elected := ?_ }
  · rintro u q (hq | ⟨rfl, rfl⟩)
    · exact h.voted_le u q hq
    · exact le_rfl
  · intro u q hq
    by_cases hc : u = H.term p ∧ q = p
    · simp only [History.castVote, hc, and_self, if_true]
      exact (h.owned_log p).mono hE
    · have hold : H.voted u q := hq.resolve_right hc
      rw [hE.vlog u q hold]
      exact (h.vote_owned u q hold).mono hE
  · intro t' q hq u n hut hn
    by_cases hc : t' = H.term p ∧ q = p
    · -- the new vote: the voter's log is its current one, and no leader of its term exists
      obtain ⟨rfl, rfl⟩ := hc
      simp only [History.castVote, and_self, if_true]
      rcases h.kept u q n hn with hpre | ⟨w, huw, hw, hledw, hnotw⟩
      · exact .inl hpre
      · have hne : w ≠ H.term q := by rintro rfl; exact hled hledw
        exact .inr ⟨w, huw, by omega, hledw, hnotw⟩
    · exact h.vote_kept_mono hE (hq.resolve_right hc) hut hn
  · exact fun u hu => h.elected_mono hE hu

omit [DecidableEq N] in
theorem elect (h : Sound tm M H) {V : Finset N} (hled : ¬ H.led (H.term p)) (hV : Majority M V)
    (hvotes : ∀ v ∈ V, H.voted (H.term p) v ∧ UpToDate tm (H.log p) (H.vlog (H.term p) v)) :
    Sound tm M (H.elect p V) := by
  have hE : H.Extends (H.elect p V) := History.extends_elect hled
  have hne : ∀ {u}, H.led u → u ≠ H.term p := by
    rintro u hu rfl; exact hled hu
  refine { h with
    owned_log := fun q => (h.owned_log q).mono hE
    owned_llog := ?_
    ilog_lt := ?_
    split := ?_
    ack_led := fun u q hq => ⟨.inl (h.ack_led u q hq).1, (h.ack_led u q hq).2⟩
    ack_le := ?_
    kept := fun u q n hn => h.kept_mono hE hn id
    vote_owned := fun u q hq => (h.vote_owned u q hq).mono hE
    vote_kept := fun t' q hq u n hut hn => h.vote_kept_mono hE hq hut hn
    elected := ?_ }
  · rintro u (hu | rfl)
    · simpa [History.elect, hne hu] using (h.owned_llog u hu).mono hE
    · simpa [History.elect] using (h.owned_log p).mono hE
  · rintro u (hu | rfl)
    · simpa [History.elect, hne hu] using h.ilog_lt u hu
    · -- entries of the current term would need a leader of it
      intro f hf
      replace hf : f ∈ H.log p := by simpa [History.elect] using hf
      have hle := h.term_le p f hf
      obtain ⟨i, hi⟩ := List.getElem?_of_mem hf
      exact lt_of_le_of_ne hle (hne (h.owned_log p i f hi).1)
  · rintro u (hu | rfl)
    · simpa [History.elect, hne hu] using h.split u hu
    · exact ⟨[], by simp [History.elect], by simp⟩
  · intro u q
    by_cases hu : u = H.term p
    · subst hu; simp [History.elect, h.ack_eq_zero hled q]
    · simpa [History.elect, hu] using h.ack_le u q
  · rintro u (hu | rfl)
    · simpa [History.elect, hne hu] using h.elected_mono hE hu
    · simpa [History.elect] using ⟨hV, hvotes⟩

theorem extend (h : Sound tm M H) {e : E} (hled : H.led (H.term p))
    (hlog : H.log p = H.llog (H.term p)) (he : tm e = H.term p) :
    Sound tm M (H.extend p e) := by
  have hack : H.ack (H.term p) p ≤ (H.log p).length := by
    rw [hlog]; exact h.ack_le _ _
  have hE : H.Extends (H.extend p e) := History.extends_extend hlog hack
  have hlogs : ∀ q, H.log q <+: (H.extend p e).log q := by
    intro q
    by_cases hq : q = p
    · subst hq; simp [History.extend]
    · simp [History.extend, hq]
  have hL : (H.extend p e).llog (H.term p) = H.log p ++ [e] := by simp [History.extend]
  have hown : Owned tm (H.extend p e) (H.log p ++ [e]) := by
    apply ((h.owned_log p).mono hE).concat
    · rw [he]; exact hled
    · rw [he, hL]
  refine { h with
    owned_log := ?_
    owned_llog := ?_
    split := ?_
    term_le := ?_
    ack_led := ?_
    ack_le := ?_
    kept := ?_
    vote_owned := fun u q hq => (h.vote_owned u q hq).mono hE
    vote_kept := ?_
    elected := fun u hu => h.elected_mono hE hu }
  · intro q
    by_cases hq : q = p
    · subst hq; simpa [History.extend] using hown
    · simpa [History.extend, hq] using (h.owned_log q).mono hE
  · intro u hu
    by_cases hu' : u = H.term p
    · subst hu'; rw [hL]; exact hown
    · simpa [History.extend, hu'] using (h.owned_llog u hu).mono hE
  · intro u hu
    obtain ⟨own, heq, hterm⟩ := h.split u hu
    by_cases hu' : u = H.term p
    · subst hu'
      refine ⟨own ++ [e], ?_, ?_⟩
      · rw [hL, hlog, heq, List.append_assoc]; rfl
      · intro f hf
        rcases List.mem_append.mp hf with hf | hf
        · exact hterm f hf
        · rw [List.mem_singleton.mp hf]; exact he
    · exact ⟨own, by simpa [History.extend, hu'] using heq, hterm⟩
  · intro q f hf
    by_cases hq : q = p
    · subst hq
      replace hf : f ∈ H.log q ∨ f = e := by simpa [History.extend] using hf
      rcases hf with hf | rfl
      · exact h.term_le q f hf
      · exact he.le
    · replace hf : f ∈ H.log q := by simpa [History.extend, hq] using hf
      exact h.term_le q f hf
  · intro u q hpos
    by_cases hc : u = H.term p ∧ q = p
    · obtain ⟨rfl, rfl⟩ := hc; exact ⟨hled, le_rfl⟩
    · exact h.ack_led u q (by simpa [History.extend, hc] using hpos)
  · intro u q
    by_cases hc : u = H.term p ∧ q = p
    · obtain ⟨rfl, rfl⟩ := hc; simp [History.extend]
    · have hold : (H.extend p e).ack u q = H.ack u q := by simp [History.extend, hc]
      rw [hold]
      by_cases hz : H.ack u q = 0
      · omega
      · exact (h.ack_le u q).trans (hE.llog u (h.ack_led u q (by omega)).1).length_le
  · intro u q n hn
    by_cases hc : u = H.term p ∧ q = p
    · obtain ⟨rfl, rfl⟩ := hc
      left
      rw [hL]
      simpa [History.extend] using List.take_prefix n (H.log q ++ [e])
    · replace hn : n ≤ H.ack u q := by simpa [History.extend, hc] using hn
      exact h.kept_mono hE hn fun hpre => hpre.trans (hlogs q)
  · intro t' q hq u n hut hn
    have hc : ¬ (u = H.term p ∧ q = p) := by
      rintro ⟨rfl, rfl⟩
      exact absurd (h.voted_le t' q hq) (by omega)
    replace hn : n ≤ H.ack u q := by simpa [History.extend, hc] using hn
    exact h.vote_kept_mono hE hq hut hn

theorem accept (h : Sound tm M H) {x : List E} (hled : H.led (H.term p))
    (hx : x <+: H.llog (H.term p)) : Sound tm M (H.accept p x) := by
  have hE := History.extends_accept H p x
  have hmerge : Owned tm H (merge (H.log p) x) := by
    by_cases hc : x <+: H.log p
    · rw [merge_eq_left hc]; exact h.owned_log p
    · rw [merge_eq_right hc]; exact (h.owned_llog _ hled).restrict hx
  refine { h with
    owned_log := ?_
    term_le := ?_
    ack_led := ?_
    ack_le := ?_
    kept := ?_
    vote_kept := ?_ }
  · intro q
    by_cases hq : q = p
    · subst hq; simpa [History.accept] using hmerge.mono hE
    · simpa [History.accept, hq] using (h.owned_log q).mono hE
  · intro q f hf
    by_cases hq : q = p
    · subst hq
      replace hf : f ∈ merge (H.log q) x := by simpa [History.accept] using hf
      by_cases hc : x <+: H.log q
      · rw [merge_eq_left hc] at hf; exact h.term_le q f hf
      · rw [merge_eq_right hc] at hf; exact h.llog_term_le hled (hx.subset hf)
    · replace hf : f ∈ H.log q := by simpa [History.accept, hq] using hf
      exact h.term_le q f hf
  · intro u q hpos
    by_cases hc : u = H.term p ∧ q = p
    · obtain ⟨rfl, rfl⟩ := hc; exact ⟨hled, le_rfl⟩
    · exact h.ack_led u q (by simpa [History.accept, hc] using hpos)
  · intro u q
    by_cases hc : u = H.term p ∧ q = p
    · obtain ⟨rfl, rfl⟩ := hc
      simpa [History.accept] using ⟨h.ack_le _ q, hx.length_le⟩
    · simpa [History.accept, hc] using h.ack_le u q
  · intro u q n hn
    by_cases hq : q = p
    · subst hq
      have hlog : (H.accept q x).log q = merge (H.log q) x := by simp [History.accept]
      by_cases hu : u = H.term q
      · -- acknowledged in the current term: kept in the old log, or part of `x`
        subst hu
        left
        rw [hlog]
        by_cases hold : n ≤ H.ack (H.term q) q
        · rcases h.kept _ q n hold with hpre | ⟨w, hw, hw', _⟩
          · exact prefix_merge_of_common hpre (List.take_prefix _ _) hx
          · omega
        · have hnx : n ≤ x.length := by
            simp only [History.accept, and_self, if_true] at hn; omega
          exact (take_prefix_of_le hx hnx).trans (prefix_merge _ _)
      · replace hn : n ≤ H.ack u q := by simpa [History.accept, hu] using hn
        by_cases hkeep : (H.llog u).take n <+: merge (H.log q) x
        · left; rw [hlog]; exact hkeep
        · -- the merge dropped it, so the leader's log does not contain it either
          rcases h.kept u q n hn with hpre | hlost
          · have hpos : n ≠ 0 := by
              rintro rfl; exact hkeep (by simp)
            have hle := (h.ack_led u q (by omega)).2
            refine .inr ⟨H.term q, by omega, Nat.lt_succ_self _, hled, fun hin => hkeep ?_⟩
            exact prefix_merge_of_common hpre (hin.trans (h.ilog_prefix_llog hled)) hx
          · exact .inr (h.lost_mono hE hn le_rfl hlost)
    · replace hn : n ≤ H.ack u q := by simpa [History.accept, hq] using hn
      refine h.kept_mono hE hn ?_
      simp [History.accept, hq]
  · intro t' q hq u n hut hn
    have hc : ¬ (u = H.term p ∧ q = p) := by
      rintro ⟨rfl, rfl⟩
      exact absurd (h.voted_le t' q hq) (by omega)
    replace hn : n ≤ H.ack u q := by simpa [History.accept, hc] using hn
    exact h.vote_kept_mono hE hq hut hn

end Sound

end Flotilla.ReplicatedLog
