/-
  Lib.SortedRuns — sorted runs of versioned entries.

  An entry has a key and a sequence number.  In a run the keys ascend, and the
  versions of one key stand newest first, so that the first entry of a key is
  its newest.  Runs are merged by taking the least head again and again.
-/
import Mathlib

namespace Flotilla.SortedRuns

class Versioned (E : Type*) (K : outParam (Type*)) where
  key : E → K
  seq : E → ℕ

export Versioned (key seq)

theorem pairwise_mem {α : Type*} {r : α → α → Prop} {l : List α} (h : l.Pairwise r) {a b : α}
    (ha : a ∈ l) (hb : b ∈ l) : a = b ∨ r a b ∨ r b a := by
  induction l with
  | nil => cases ha
  | cons x l ih =>
    obtain ⟨hx, hrest⟩ := List.pairwise_cons.mp h
    rcases List.mem_cons.mp ha with rfl | ha'
    · rcases List.mem_cons.mp hb with rfl | hb'
      · exact .inl rfl
      · exact .inr (.inl (hx b hb'))
    · rcases List.mem_cons.mp hb with rfl | hb'
      · exact .inr (.inr (hx a ha'))
      · exact ih hrest ha' hb'

variable {E K : Type*} [LinearOrder K] [Versioned E K]

/-! ## The order. -/

/-- `a` stands before `b`: a smaller key, or a newer version of the same. -/
def Lt (a b : E) : Prop := key a < key b ∨ (key a = key b ∧ seq b < seq a)

instance (a b : E) : Decidable (Lt a b) := inferInstanceAs (Decidable (_ ∨ _))

def Le (a b : E) : Prop := key a < key b ∨ (key a = key b ∧ seq b ≤ seq a)

theorem Le.refl (a : E) : Le a a := .inr ⟨rfl, (Nat.le_refl _)⟩

variable {a b e : E} {es : List E} {k : K} {cs : List (List E)}

theorem Le.trans {c : E} (hab : Le a b) (hbc : Le b c) : Le a c := by
  rcases hab with hab | ⟨hab, hseq⟩
  · rcases hbc with hbc | ⟨hbc, _⟩
    · exact .inl (lt_trans hab hbc)
    · exact .inl (hbc ▸ hab)
  · rcases hbc with hbc | ⟨hbc, hseq'⟩
    · exact .inl (hab ▸ hbc)
    · exact .inr ⟨hab.trans hbc, Nat.le_trans hseq' hseq⟩

theorem Lt.trans {c : E} (hab : Lt a b) (hbc : Lt b c) : Lt a c := by
  rcases hab with hab | ⟨hab, hseq⟩
  · rcases hbc with hbc | ⟨hbc, _⟩
    · exact .inl (lt_trans hab hbc)
    · exact .inl (hbc ▸ hab)
  · rcases hbc with hbc | ⟨hbc, hseq'⟩
    · exact .inl (hab ▸ hbc)
    · exact .inr ⟨hab.trans hbc, Nat.lt_trans hseq' hseq⟩

theorem Le.key_le (h : Le a b) : key a ≤ key b := by
  rcases h with h | ⟨h, _⟩
  · exact le_of_lt h
  · exact le_of_eq h

theorem Lt.le (h : Lt a b) : Le a b := by
  rcases h with h | ⟨h, hseq⟩
  · exact .inl h
  · exact .inr ⟨h, Nat.le_of_lt hseq⟩

theorem le_of_not_lt (h : ¬ Lt b a) : Le a b := by
  rcases lt_trichotomy (key a) (key b) with hlt | heq | hgt
  · exact .inl hlt
  · refine .inr ⟨heq, Nat.le_of_not_lt fun hseq => h (.inr ⟨heq.symm, hseq⟩)⟩
  · exact absurd (.inl hgt) h

/-- The newest version of its key. -/
def Newest (es : List E) (e : E) : Prop := e ∈ es ∧ ∀ e' ∈ es, key e' = key e → seq e' ≤ seq e

theorem eq_of_sorted (hsorted : es.Pairwise Lt) (ha : a ∈ es) (hb : b ∈ es) (hk : key a = key b)
    (hseq : seq a = seq b) : a = b := by
  have hne : ∀ {x y : E}, Lt x y → key x = key y → seq x ≠ seq y := by
    intro x y hlt hkey
    rcases hlt with hlt | ⟨_, hlt⟩
    · exact absurd hkey (ne_of_lt hlt)
    · exact Nat.ne_of_gt hlt
  rcases pairwise_mem hsorted ha hb with hsame | hlt | hlt
  · exact hsame
  · exact absurd hseq (hne hlt hk)
  · exact absurd hseq.symm (hne hlt hk.symm)

/-- In a strictly sorted list a key has one newest version. -/
theorem Newest.unique (hsorted : es.Pairwise Lt) (ha : Newest es a) (hb : Newest es b)
    (hk : key a = key b) : a = b :=
  eq_of_sorted hsorted ha.1 hb.1 hk (Nat.le_antisymm (hb.2 a ha.1 hk) (ha.2 b hb.1 hk.symm))

/-- A run: sorted by key, newest first. -/
def Run (es : List E) : Prop := es.Pairwise Le

theorem Run.find?_newest (h : Run es) (he : es.find? (fun e => key e = k) = some e) :
    Newest es e ∧ key e = k := by
  have hkey : key e = k := by simpa using List.find?_some he
  refine ⟨⟨List.mem_of_find?_eq_some he, ?_⟩, hkey⟩
  rw [hkey]
  induction es with
  | nil => cases he
  | cons x es ih =>
    obtain ⟨hx, hes⟩ := List.pairwise_cons.mp h
    intro e' he' hk'
    by_cases hxk : key x = k
    · have hxe : x = e := by simpa [hxk] using he
      rw [← hxe]
      rcases List.mem_cons.mp he' with rfl | he'
      · exact (Nat.le_refl _)
      · rcases hx e' he' with hlt | ⟨_, hseq⟩
        · rw [hxk, hk'] at hlt
          exact absurd hlt (lt_irrefl k)
        · exact hseq
    · have he : es.find? (fun e => key e = k) = some e := by simpa [hxk] using he
      rcases List.mem_cons.mp he' with rfl | he'
      · exact absurd hk' hxk
      · exact ih hes he e' he' hk'

theorem exists_find? (h : ∃ e ∈ es, key e = k) :
    ∃ e, es.find? (fun e => key e = k) = some e := by
  apply Option.isSome_iff_exists.mp
  rw [List.find?_isSome]
  obtain ⟨e, he, hk⟩ := h
  exact ⟨e, he, by simpa using hk⟩

theorem head?_dropWhile_key (hsorted : es.Pairwise (fun a b => key a ≤ key b))
    {below here : E → Bool} (hbelow : ∀ e ∈ es, below e = true ↔ key e < k)
    (hhere : ∀ e ∈ es, here e = true ↔ key e = k) :
    (es.dropWhile below).head?.filter here = es.find? here := by
  induction es with
  | nil => rfl
  | cons e es ih =>
    obtain ⟨he, hes⟩ := List.pairwise_cons.mp hsorted
    have hbelow' := fun x hx => hbelow x (List.mem_cons_of_mem e hx)
    have hhere' := fun x hx => hhere x (List.mem_cons_of_mem e hx)
    rw [List.dropWhile_cons]
    by_cases hlt : key e < k
    · have hnot : ¬ here e = true := fun h => ne_of_lt hlt ((hhere e List.mem_cons_self).mp h)
      rw [if_pos ((hbelow e List.mem_cons_self).mpr hlt), ih hes hbelow' hhere',
        List.find?_cons_of_neg hnot]
    · rw [if_neg fun h => hlt ((hbelow e List.mem_cons_self).mp h)]
      show (some e).filter here = _
      rw [Option.filter_some]
      by_cases heq : key e = k
      · have hyes := (hhere e List.mem_cons_self).mpr heq
        rw [List.find?_cons_of_pos hyes, if_pos hyes]
      · have hnot : ¬ here e = true := fun h => heq ((hhere e List.mem_cons_self).mp h)
        rw [List.find?_cons_of_neg hnot, if_neg hnot]
        -- the keys that follow are larger still
        symm
        apply List.find?_eq_none.mpr
        intro x hx hyes
        have hgt : k < key e := lt_of_le_of_ne (le_of_not_gt hlt) (Ne.symm heq)
        exact ne_of_gt (lt_of_lt_of_le hgt (he x hx)) ((hhere' x hx).mp hyes)

/-! ## The first entry of every key. -/

/-- Entries whose key is that of the entry before are left out. -/
def firstsFrom (last : Option K) : List E → List E
  | [] => []
  | e :: es =>
      if last = some (key e) then firstsFrom last es
      else e :: firstsFrom (some (key e)) es

def firsts (es : List E) : List E := firstsFrom none es

theorem mem_firstsFrom_iff (h : Run es) {last : Option K}
    (hlast : ∀ k, last = some k → ∀ e ∈ es, k ≤ key e) :
    e ∈ firstsFrom last es ↔
      es.find? (fun x => key x = key e) = some e ∧ last ≠ some (key e) := by
  induction es generalizing last with
  | nil => simp [firstsFrom]
  | cons x es ih =>
    obtain ⟨hx, hes⟩ := List.pairwise_cons.mp h
    rw [firstsFrom]
    by_cases hskip : last = some (key x)
    · rw [if_pos hskip, ih hes (fun k hk y hy => hlast k hk y (List.mem_cons_of_mem x hy))]
      by_cases hxe : key x = key e
      · simp [hskip, hxe]
      · simp [hxe]
    · rw [if_neg hskip, List.mem_cons, ih hes (fun k hk y hy => by
        cases hk
        exact (hx y hy).key_le)]
      by_cases hxe : key x = key e
      · -- the first entry of this key is `x`
        have hsame : last ≠ some (key e) := fun hl => hskip (hl.trans (by rw [hxe]))
        simp [hxe, hsame, eq_comm]
      · have hne : e ≠ x := fun heq => hxe (by rw [heq])
        have hafter : es.find? (fun y => key y = key e) = some e → last ≠ some (key e) := by
          intro hfind hl
          have hmem := List.mem_of_find?_eq_some hfind
          have hle := hlast _ hl x List.mem_cons_self
          exact hxe (le_antisymm (hx e hmem).key_le hle)
        simp only [hne, false_or, List.find?_cons, hxe, decide_false]
        constructor
        · intro hfind
          exact ⟨hfind.1, hafter hfind.1⟩
        · intro hfind
          exact ⟨hfind.1, fun heq => hxe (Option.some.inj heq)⟩

theorem mem_firsts_iff (h : Run es) :
    e ∈ firsts es ↔ es.find? (fun x => key x = key e) = some e := by
  have hnone : ∀ k, (none : Option K) = some k → ∀ e ∈ es, k ≤ key e := fun _ hk => nomatch hk
  unfold firsts
  rw [mem_firstsFrom_iff h hnone]
  simp

theorem firstsFrom_sorted (h : Run es) {last : Option K}
    (hlast : ∀ k, last = some k → ∀ e ∈ es, k ≤ key e) :
    (firstsFrom last es).Pairwise (fun a b => key a < key b) := by
  induction es generalizing last with
  | nil => exact .nil
  | cons x es ih =>
    obtain ⟨hx, hes⟩ := List.pairwise_cons.mp h
    have hfrom : ∀ k, some (key x) = some k → ∀ e ∈ es, k ≤ key e := by
      intro k hk y hy
      cases hk
      exact (hx y hy).key_le
    rw [firstsFrom]
    split
    · exact ih hes (fun k hk y hy => hlast k hk y (List.mem_cons_of_mem x hy))
    · refine List.pairwise_cons.mpr ⟨fun y hy => ?_, ih hes hfrom⟩
      obtain ⟨hfind, hne⟩ := (mem_firstsFrom_iff hes hfrom).mp hy
      have hle := (hx y (List.mem_of_find?_eq_some hfind)).key_le
      exact lt_of_le_of_ne hle (fun heq => hne (by rw [heq]))

theorem firsts_sorted (h : Run es) :
    (firsts es).Pairwise (fun a b => key a < key b) :=
  firstsFrom_sorted h (fun _ hk => nomatch hk)

/-! ## Inserting. -/

/-- Before the first entry that does not stand before it. -/
def insert (e : E) : List E → List E
  | [] => [e]
  | x :: es => if Lt x e then x :: insert e es else e :: x :: es

theorem insert_perm (e : E) (es : List E) : (insert e es).Perm (e :: es) := by
  induction es with
  | nil => exact List.Perm.refl _
  | cons x es ih =>
    rw [insert]
    split
    · exact (ih.cons x).trans (List.Perm.swap e x es)
    · exact List.Perm.refl _

theorem insert_run (h : Run es) (e : E) : Run (insert e es) := by
  induction es with
  | nil => exact List.pairwise_singleton _ e
  | cons x es ih =>
    obtain ⟨hx, hes⟩ := List.pairwise_cons.mp h
    rw [insert]
    split
    · rename_i hlt
      refine List.pairwise_cons.mpr ⟨fun y hy => ?_, ih hes⟩
      rcases List.mem_cons.mp ((insert_perm e es).mem_iff.mp hy) with rfl | hy
      · exact hlt.le
      · exact hx y hy
    · rename_i hnot
      have hle : Le e x := le_of_not_lt hnot
      refine List.pairwise_cons.mpr ⟨fun y hy => ?_, h⟩
      rcases List.mem_cons.mp hy with rfl | hy
      · exact hle
      · exact hle.trans (hx y hy)

/-! ## Merging. -/

/-- The least head from position `i` on, the first of equal ones; `current` is the least so far. -/
def pickFrom (current : Option (ℕ × E)) (i : ℕ) : List (List E) → Option (ℕ × E)
  | [] => current
  | [] :: cs => pickFrom current (i + 1) cs
  | (e :: _) :: cs =>
      match current with
      | none => pickFrom (some (i, e)) (i + 1) cs
      | some (j, m) =>
          if Lt e m then pickFrom (some (i, e)) (i + 1) cs
          else pickFrom (some (j, m)) (i + 1) cs

/-- The entries in the order in which the merge meets them, `fuel` of them at most. -/
def mergeFuel : ℕ → List (List E) → List E
  | 0, _ => []
  | fuel + 1, cs =>
      match pickFrom none 0 cs with
      | none => []
      | some (i, e) => e :: mergeFuel fuel (cs.modify i List.tail)

def merge (cs : List (List E)) : List E := mergeFuel cs.flatten.length cs

theorem pickFrom_spec (all : List (List E)) (cs : List (List E)) (i : ℕ)
    (hcs : all.drop i = cs) (current : Option (ℕ × E))
    (hcur : ∀ j m, current = some (j, m) → ∃ rest, all[j]? = some (m :: rest))
    (hleast : ∀ c ∈ all.take i, ∀ x ∈ c.head?, ∃ j m, current = some (j, m) ∧ Le m x) :
    (∀ j m, pickFrom current i cs = some (j, m) → ∃ rest, all[j]? = some (m :: rest)) ∧
      (∀ c ∈ all, ∀ x ∈ c.head?, ∃ j m, pickFrom current i cs = some (j, m) ∧ Le m x) := by
  induction cs generalizing i current with
  | nil =>
    have htake : all.take i = all := List.take_of_length_le (List.drop_eq_nil_iff.mp hcs)
    rw [htake] at hleast
    exact ⟨hcur, hleast⟩
  | cons c cs ih =>
    have hi : all[i]? = some c := by
      have := congrArg List.head? hcs
      rwa [List.head?_drop] at this
    have hcs' : all.drop (i + 1) = cs := by
      rw [← List.tail_drop, hcs]
      rfl
    have htake : all.take (i + 1) = all.take i ++ [c] := by
      rw [List.take_add_one, hi]
      rfl
    cases c with
    | nil =>
      rw [pickFrom]
      apply ih (i + 1) hcs' current hcur
      intro c hc x hx
      rw [htake] at hc
      rcases List.mem_append.mp hc with hc | hc
      · exact hleast c hc x hx
      · rw [List.mem_singleton.mp hc] at hx
        cases hx
    | cons e rest =>
      -- the head of this list against the least so far
      have hnext : ∀ current', (∀ j m, current' = some (j, m) →
          ∃ rest, all[j]? = some (m :: rest)) →
          (∀ c ∈ all.take i, ∀ x ∈ c.head?, ∃ j m, current' = some (j, m) ∧ Le m x) →
          (∃ j m, current' = some (j, m) ∧ Le m e) →
          (∀ j m, pickFrom current' (i + 1) cs = some (j, m) → ∃ rest, all[j]? = some (m :: rest)) ∧
          (∀ c ∈ all, ∀ x ∈ c.head?,
            ∃ j m, pickFrom current' (i + 1) cs = some (j, m) ∧ Le m x) := by
        intro current' hcur' hleast' hhead
        apply ih (i + 1) hcs' current' hcur'
        intro c hc x hx
        rw [htake] at hc
        rcases List.mem_append.mp hc with hc | hc
        · exact hleast' c hc x hx
        · rw [List.mem_singleton.mp hc] at hx
          cases hx
          exact hhead
      have hnew : ∀ j m, some (i, e) = some (j, m) → ∃ rest, all[j]? = some (m :: rest) := by
        intro j m hjm
        cases hjm
        exact ⟨rest, hi⟩
      cases current with
      | none =>
        rw [pickFrom]
        apply hnext _ hnew
        · intro c hc x hx
          obtain ⟨j, m, hnone, _⟩ := hleast c hc x hx
          cases hnone
        · exact ⟨i, e, rfl, .refl e⟩
      | some jm =>
        obtain ⟨j, m⟩ := jm
        rw [pickFrom]
        split
        · rename_i hlt
          apply hnext _ hnew
          · intro c hc x hx
            obtain ⟨j', m', hjm, hle⟩ := hleast c hc x hx
            cases hjm
            exact ⟨i, e, rfl, hlt.le.trans hle⟩
          · exact ⟨i, e, rfl, .refl e⟩
        · rename_i hnot
          apply hnext _ hcur hleast
          exact ⟨j, m, rfl, le_of_not_lt hnot⟩

theorem pick_some {i : ℕ} (h : pickFrom none 0 cs = some (i, e)) :
    (∃ rest, cs[i]? = some (e :: rest)) ∧ ∀ c ∈ cs, ∀ x ∈ c.head?, Le e x := by
  obtain ⟨hhead, hleast⟩ := pickFrom_spec cs cs 0 rfl none (fun _ _ hn => nomatch hn)
    (fun c hc => (List.not_mem_nil hc).elim)
  refine ⟨hhead i e h, fun c hc x hx => ?_⟩
  obtain ⟨j, m, hjm, hle⟩ := hleast c hc x hx
  rw [h] at hjm
  cases hjm
  exact hle

theorem pick_none (h : pickFrom none 0 cs = none) : cs.flatten = [] := by
  obtain ⟨_, hleast⟩ := pickFrom_spec cs cs 0 rfl none (fun _ _ hn => nomatch hn)
    (fun c hc => (List.not_mem_nil hc).elim)
  apply List.flatten_eq_nil_iff.mpr
  intro c hc
  cases c with
  | nil => rfl
  | cons x rest =>
    obtain ⟨j, m, hjm, _⟩ := hleast _ hc x rfl
    rw [h] at hjm
    cases hjm

theorem perm_modify_tail {i : ℕ} {rest : List E} (h : cs[i]? = some (e :: rest)) :
    cs.flatten.Perm (e :: (cs.modify i List.tail).flatten) := by
  induction cs generalizing i with
  | nil => cases h
  | cons c cs ih =>
    cases i with
    | zero =>
      cases h
      rfl
    | succ i =>
      have hrest := ih (i := i) h
      show (c ++ cs.flatten).Perm (e :: (c ++ (cs.modify i List.tail).flatten))
      exact (List.Perm.append_left c hrest).trans List.perm_middle

theorem mergeFuel_perm (fuel : ℕ) (cs : List (List E)) (hfuel : cs.flatten.length ≤ fuel) :
    (mergeFuel fuel cs).Perm cs.flatten := by
  induction fuel generalizing cs with
  | zero =>
    rw [List.length_eq_zero_iff.mp (Nat.le_zero.mp hfuel)]
    rfl
  | succ fuel ih =>
    rw [mergeFuel]
    cases hpick : pickFrom none 0 cs with
    | none =>
      rw [pick_none hpick]
    | some next =>
      obtain ⟨i, e⟩ := next
      obtain ⟨⟨rest, hi⟩, _⟩ := pick_some hpick
      have hperm := perm_modify_tail hi
      have hlen := hperm.length_eq
      rw [List.length_cons] at hlen
      exact ((ih _ (by omega)).cons e).trans hperm.symm

theorem merge_perm (cs : List (List E)) : (merge cs).Perm cs.flatten :=
  mergeFuel_perm _ cs (Nat.le_refl _)

theorem mem_merge : e ∈ merge cs ↔ ∃ c ∈ cs, e ∈ c := by
  rw [(merge_perm cs).mem_iff, List.mem_flatten]

theorem mergeFuel_run (fuel : ℕ) (cs : List (List E)) (hfuel : cs.flatten.length ≤ fuel)
    (hcs : ∀ c ∈ cs, Run c) : Run (mergeFuel fuel cs) := by
  induction fuel generalizing cs with
  | zero => exact .nil
  | succ fuel ih =>
    rw [mergeFuel]
    cases hpick : pickFrom none 0 cs with
    | none => exact .nil
    | some next =>
      obtain ⟨i, e⟩ := next
      obtain ⟨⟨rest, hi⟩, hleast⟩ := pick_some hpick
      have hperm := perm_modify_tail hi
      have hlen := hperm.length_eq
      rw [List.length_cons] at hlen
      have hshort : (cs.modify i List.tail).flatten.length ≤ fuel := by omega
      refine List.pairwise_cons.mpr ⟨fun x hx => ?_, ih _ hshort fun c hc => ?_⟩
      · -- every entry stands behind the head of its list
        have hx : x ∈ cs.flatten := hperm.mem_iff.mpr
          (List.mem_cons_of_mem e ((mergeFuel_perm fuel _ hshort).mem_iff.mp hx))
        obtain ⟨c, hc, hxc⟩ := List.mem_flatten.mp hx
        cases c with
        | nil => cases hxc
        | cons y ys =>
          have hy := hleast _ hc y rfl
          rcases List.mem_cons.mp hxc with rfl | hxc
          · exact hy
          · exact hy.trans ((List.pairwise_cons.mp (hcs _ hc)).1 x hxc)
      · obtain ⟨j, hj⟩ := List.mem_iff_getElem?.mp hc
        rw [List.getElem?_modify] at hj
        obtain ⟨c', hc', heq⟩ := Option.map_eq_some_iff.mp hj
        have hrun := hcs c' (List.mem_of_getElem? hc')
        split at heq
        · rw [← heq]
          exact List.Pairwise.tail hrun
        · rw [← heq]
          exact hrun

theorem merge_run (hcs : ∀ c ∈ cs, Run c) : Run (merge cs) :=
  mergeFuel_run _ cs (Nat.le_refl _) hcs

end Flotilla.SortedRuns
