/-
  Chaos.CheckerSearch — what the loop of `check_key` decides.

  The operations are a `Timed` system whose state is the register, and a pair on
  the stack stands for the operations that are not in its mask, with the register
  as it is (`Good` says that they can be used up).  Reads of the current value
  never hurt, of the deletes without a response only the first has to be tried,
  and what was visited need not be visited again: a good pair that is skipped has
  a good successor that is still waiting or was visited too, and successors have
  fewer operations left (`Frontier`).
-/
import Flotilla.Chaos.Checker
import Flotilla.Lib.Schedules

namespace Flotilla.Chaos

open Schedules

variable {V : Type} [DecidableEq V]

/-! ## Masks and the operations they leave. -/

/-- A register: a read acts only if it observes the value. -/
def register : Timed (Op V) (Option V) (WithTop ℚ) where
  inv op := op.inv
  ret op := op.ret
  act op value :=
    if op.kind = .get then (if op.observed = value then some value else none) else some op.effect
  optional op := op.determinate = false

/-- The operations by their positions. -/
def placed (ops : List (Op V)) : Timed (Fin ops.length) (Option V) (WithTop ℚ) :=
  register.comap ops.get

/-- What `check_key` knows of the sorted operations. -/
structure Valid (ops : List (Op V)) : Prop where
  sorted : ops.Pairwise fun a b => a.inv ≤ b.inv
  window : ∀ op ∈ ops, (op.inv : WithTop ℚ) ≤ op.ret
  unfinished : ∀ op ∈ ops, op.determinate = false → op.ret = ⊤ ∧ op.kind ≠ .get

variable {ops : List (Op V)} {done i fuel : Nat} {least : WithTop ℚ} {value : Option V}
  {stack : List (Nat × Option V)}

theorem Valid.wellTimed (h : Valid ops) : (placed ops).WellTimed where
  inv_le_ret i := h.window _ (List.get_mem ops i)
  optional_ret i hi := (h.unfinished _ (List.get_mem ops i) hi).1

/-- The operations that are not in the mask. -/
def pending (ops : List (Op V)) (done : Nat) : Finset (Fin ops.length) :=
  Finset.univ.filter fun i => done.testBit i = false

omit [DecidableEq V] in
theorem mem_pending {i : Fin ops.length} :
    i ∈ pending ops done ↔ done.testBit i = false := by
  unfold pending
  simp

theorem testBit_mark (done i j : Nat) :
    (done ||| 1 <<< i).testBit j = (done.testBit j || decide (j = i)) := by
  rw [Nat.testBit_or, Nat.one_shiftLeft, Nat.testBit_two_pow]
  congr 1
  exact decide_eq_decide.mpr eq_comm

omit [DecidableEq V] in
theorem pending_mark (done : Nat) (i : Fin ops.length) :
    pending ops (done ||| 1 <<< i.val) = (pending ops done).erase i := by
  ext j
  rw [mem_pending, testBit_mark, Finset.mem_erase, mem_pending]
  have hval : (j : Nat) = i ↔ j = i := Fin.val_inj
  simp [hval, and_comm]

theorem mark_lt {n : Nat} (hd : done < 2 ^ n) (hi : i < n) : done ||| 1 <<< i < 2 ^ n := by
  apply Nat.or_lt_two_pow hd
  rw [Nat.one_shiftLeft]
  exact Nat.pow_lt_pow_right (by omega) hi

omit [DecidableEq V] in
theorem pending_eq_empty (hd : done < 2 ^ ops.length) :
    pending ops done = ∅ ↔ done = (1 <<< ops.length) - 1 := by
  rw [Nat.one_shiftLeft]
  constructor
  · intro hempty
    apply Nat.eq_of_testBit_eq
    intro j
    rw [Nat.testBit_two_pow_sub_one]
    by_cases hj : j < ops.length
    · have hset : (⟨j, hj⟩ : Fin ops.length) ∉ pending ops done := by
        rw [hempty]
        exact Finset.notMem_empty _
      rw [mem_pending] at hset
      simpa [hj] using hset
    · have hzero : done.testBit j = false :=
        Nat.testBit_lt_two_pow (lt_of_lt_of_le hd (Nat.pow_le_pow_right (by omega) (by omega)))
      simp [hj, hzero]
  · intro hall
    rw [Finset.eq_empty_iff_forall_notMem]
    intro j hj
    rw [mem_pending, hall, Nat.testBit_two_pow_sub_one] at hj
    simp at hj

omit [DecidableEq V] in
theorem card_pending_le (ops : List (Op V)) (done : Nat) : (pending ops done).card ≤ ops.length := by
  have hle := Finset.card_le_univ (pending ops done)
  rwa [Fintype.card_fin] at hle

/-! ## Enabled operations. -/

omit [DecidableEq V] in
theorem le_minRet {a : WithTop ℚ} :
    a ≤ minRet done i least ops ↔
      a ≤ least ∧ ∀ k (hk : k < ops.length), done.testBit (i + k) = false → a ≤ ops[k].ret := by
  induction ops generalizing i least with
  | nil =>
    show a ≤ least ↔ _
    simp
  | cons op ops ih =>
    show a ≤ minRet done (i + 1) _ ops ↔ _
    rw [ih]
    have hhead : a ≤ (if !done.testBit i ∧ op.ret < least then op.ret else least) ↔
        a ≤ least ∧ (done.testBit i = false → a ≤ op.ret) := by
      by_cases hbit : done.testBit i = false
      · by_cases hlt : op.ret < least
        · simp only [hbit, hlt]
          exact ⟨fun h => ⟨h.trans hlt.le, fun _ => h⟩, fun h => h.2 trivial⟩
        · simp only [hbit, hlt]
          exact ⟨fun h => ⟨h, fun _ => h.trans (not_lt.mp hlt)⟩, fun h => h.1⟩
      · simp [hbit]
    rw [hhead, and_assoc]
    refine and_congr_right fun _ => ?_
    constructor
    · intro h k hk hbit
      cases k with
      | zero => exact h.1 hbit
      | succ k => exact h.2 k (Nat.lt_of_succ_lt_succ hk) (by rw [Nat.add_right_comm]; exact hbit)
    · intro h
      refine ⟨h 0 (Nat.succ_pos _), fun k hk hbit => ?_⟩
      exact h (k + 1) (Nat.succ_lt_succ hk) (by rw [← Nat.add_assoc, Nat.add_right_comm]; exact hbit)

theorem enabled_iff {i : Fin ops.length} :
    (placed ops).Enabled (pending ops done) i ↔
      ((ops.get i).inv : WithTop ℚ) ≤ minRet done 0 ⊤ ops := by
  rw [le_minRet]
  constructor
  · intro h
    refine ⟨le_top, fun k hk hbit => h ⟨k, hk⟩ (mem_pending.mpr ?_)⟩
    rwa [Nat.zero_add] at hbit
  · intro h j hj
    refine h.2 j j.isLt ?_
    rw [Nat.zero_add]
    exact mem_pending.mp hj

theorem matchingRead_some {j : Nat} (h : matchingRead done value least i ops = some j) :
    ∃ k, ∃ hk : k < ops.length, j = i + k ∧ done.testBit j = false ∧
      (ops[k].inv : WithTop ℚ) ≤ least ∧ ops[k].kind = .get ∧ ops[k].observed = value := by
  induction ops generalizing i with
  | nil => cases h
  | cons op ops ih =>
    -- the loop goes on behind this operation
    have hlater : matchingRead done value least (i + 1) ops = some j →
        ∃ k, ∃ hk : k < (op :: ops).length, j = i + k ∧ done.testBit j = false ∧
          ((op :: ops)[k].inv : WithTop ℚ) ≤ least ∧ (op :: ops)[k].kind = .get ∧
          (op :: ops)[k].observed = value := by
      intro hrest
      obtain ⟨k, hk, hj, hread⟩ := ih hrest
      exact ⟨k + 1, Nat.succ_lt_succ hk, by omega, hread⟩
    unfold matchingRead at h
    split at h
    · exact hlater h
    · rename_i hbit
      split at h
      · cases h
      · rename_i hinv
        split at h
        · rename_i hread
          cases h
          exact ⟨0, Nat.succ_pos _, rfl, Bool.eq_false_iff.mpr hbit, not_lt.mp hinv, hread⟩
        · exact hlater h

theorem matchingRead_none (hsorted : ops.Pairwise fun a b => a.inv ≤ b.inv)
    (h : matchingRead done value least i ops = none) {k : Nat} (hk : k < ops.length)
    (hbit : done.testBit (i + k) = false) (hinv : (ops[k].inv : WithTop ℚ) ≤ least)
    (hkind : ops[k].kind = .get) : ops[k].observed ≠ value := by
  induction ops generalizing i k with
  | nil => exact absurd hk (Nat.not_lt_zero k)
  | cons op ops ih =>
    obtain ⟨hle, htail⟩ := List.pairwise_cons.mp hsorted
    unfold matchingRead at h
    cases k with
    | zero =>
      rw [Nat.add_zero] at hbit
      rw [if_neg (Bool.eq_false_iff.mp hbit)] at h
      have hhead : (op.inv : WithTop ℚ) ≤ least := hinv
      rw [if_neg (not_lt.mpr hhead)] at h
      intro hvalue
      rw [if_pos ⟨hkind, hvalue⟩] at h
      cases h
    | succ k =>
      have hk' : k < ops.length := Nat.lt_of_succ_lt_succ hk
      have hrest : matchingRead done value least (i + 1) ops = none := by
        split at h
        · exact h
        · split at h
          · -- the loop breaks, and so would every later operation
            rename_i hbreak
            have hlater : (op.inv : WithTop ℚ) ≤ ops[k].inv :=
              WithTop.coe_le_coe.mpr (hle _ (List.getElem_mem hk'))
            exact absurd (hlater.trans hinv) (not_le.mpr hbreak)
          · split at h
            · cases h
            · exact h
      exact ih htail hrest hk' (by rw [Nat.add_right_comm]; exact hbit) hinv hkind

/-! ## Reads are placed at once. -/

/-- A pair of the stack from which the operations that are left can be used up. -/
def Good (ops : List (Op V)) (c : Nat × Option V) : Prop :=
  (placed ops).Completes (pending ops c.1) c.2

theorem placed_read {i : Fin ops.length} (hkind : (ops.get i).kind = .get) {s s' : Option V} :
    (placed ops).act i s = some s' ↔ (ops.get i).observed = s ∧ s' = s := by
  show (if (ops.get i).kind = .get then
    (if (ops.get i).observed = s then some s else none) else _) = some s' ↔ _
  rw [if_pos hkind]
  split
  · rename_i heq
    rw [Option.some.injEq]
    exact ⟨fun h => ⟨heq, h.symm⟩, fun h => h.2.symm⟩
  · rename_i hne
    exact ⟨fun h => (by cases h), fun h => absurd h.1 hne⟩

theorem placed_write {i : Fin ops.length} (hkind : (ops.get i).kind ≠ .get) (s : Option V) :
    (placed ops).act i s = some (ops.get i).effect := if_neg hkind

theorem good_read {i : Fin ops.length} (hi : i ∈ pending ops done)
    (henabled : (placed ops).Enabled (pending ops done) i) (hkind : (ops.get i).kind = .get)
    (hvalue : (ops.get i).observed = value) :
    Good ops (done, value) ↔ Good ops (done ||| 1 <<< i.val, value) := by
  show (placed ops).Completes _ _ ↔ (placed ops).Completes _ _
  rw [pending_mark]
  constructor
  · intro h
    exact h.erase_silent fun t t' hact => (placed_read hkind).mp hact |>.2
  · intro h
    exact .act i hi henabled ((placed_read hkind).mpr ⟨hvalue, rfl⟩) h

/-- What `consume_matching_reads` does to a pair. -/
structure Settles (ops : List (Op V)) (value : Option V) (done done' : Nat) : Prop where
  lt : done' < 2 ^ ops.length
  subset : pending ops done' ⊆ pending ops done
  good : Good ops (done, value) ↔ Good ops (done', value)
  none_left : matchingRead done' value (minRet done' 0 ⊤ ops) 0 ops = none

theorem consume_settles (hd : done < 2 ^ ops.length) (hfuel : (pending ops done).card < fuel) :
    ∃ done', consumeMatchingReads ops value fuel done = some done' ∧
      Settles ops value done done' := by
  induction fuel generalizing done with
  | zero => cases hfuel
  | succ fuel ih =>
    unfold consumeMatchingReads
    cases hread : matchingRead done value (minRet done 0 ⊤ ops) 0 ops with
    | none => exact ⟨done, rfl, hd, Finset.Subset.refl _, Iff.rfl, hread⟩
    | some j =>
      obtain ⟨k, hk, hj, hbit, hinv, hkind, hvalue⟩ := matchingRead_some hread
      rw [Nat.zero_add] at hj
      subst hj
      have hmem : (⟨j, hk⟩ : Fin ops.length) ∈ pending ops done := mem_pending.mpr hbit
      have hmark : pending ops (done ||| 1 <<< j) = (pending ops done).erase ⟨j, hk⟩ :=
        pending_mark done ⟨j, hk⟩
      -- one operation fewer is left
      have hcard := Finset.card_erase_lt_of_mem hmem
      obtain ⟨done', hrun, hs⟩ := ih (mark_lt hd hk) (by rw [hmark]; omega)
      refine ⟨done', hrun, hs.lt, ?_, ?_, hs.none_left⟩
      · refine hs.subset.trans ?_
        rw [hmark]
        exact Finset.erase_subset _ _
      · exact (good_read hmem (enabled_iff.mpr hinv) hkind hvalue).trans hs.good

theorem settles (value : Option V) (hd : done < 2 ^ ops.length) :
    ∃ done', consumeMatchingReads ops value (ops.length + 1) done = some done' ∧
      Settles ops value done done' :=
  consume_settles hd (Nat.lt_succ_of_le (card_pending_le ops done))

/-! ## Branching. -/

section

variable {done : Nat} {value : Option V} {least : WithTop ℚ}

omit [DecidableEq V] in
theorem mem_branch_of_stack {ops : List (Op V)} {i : Nat} {branched : Bool}
    {stack : List (Nat × Option V)} {c : Nat × Option V} (hc : c ∈ stack) :
    c ∈ branch done value least i branched ops stack := by
  induction ops generalizing i branched stack with
  | nil => exact hc
  | cons op ops ih =>
    unfold branch
    split
    · exact ih hc
    · split
      · exact hc
      · split
        · exact ih hc
        · split
          · exact ih hc
          · apply ih
            split
            · exact List.mem_cons_of_mem _ hc
            · exact List.mem_cons_of_mem _ (List.mem_cons_of_mem _ hc)

omit [DecidableEq V] in
theorem length_branch_le (ops : List (Op V)) (i : Nat) (branched : Bool)
    (stack : List (Nat × Option V)) :
    (branch done value least i branched ops stack).length ≤ stack.length + 2 * ops.length := by
  induction ops generalizing i branched stack with
  | nil => exact le_rfl
  | cons op ops ih =>
    have hgrow : (op :: ops).length = ops.length + 1 := rfl
    unfold branch
    split
    · have := ih (i + 1) branched stack
      omega
    · split
      · omega
      · split
        · have := ih (i + 1) branched stack
          omega
        · split
          · have := ih (i + 1) branched stack
            omega
          · refine (ih _ _ _).trans ?_
            split
            · show stack.length + 1 + 2 * ops.length ≤ _
              omega
            · show stack.length + 1 + 1 + 2 * ops.length ≤ _
              omega

omit [DecidableEq V] in
theorem of_mem_branch {ops : List (Op V)} {i : Nat} {branched : Bool}
    {stack : List (Nat × Option V)} {c : Nat × Option V}
    (hc : c ∈ branch done value least i branched ops stack) :
    c ∈ stack ∨ ∃ k, ∃ hk : k < ops.length, done.testBit (i + k) = false ∧
      (ops[k].inv : WithTop ℚ) ≤ least ∧ ops[k].kind ≠ .get ∧ c.1 = done ||| 1 <<< (i + k) ∧
      (c.2 = ops[k].effect ∨ ops[k].determinate = false ∧ c.2 = value) := by
  induction ops generalizing i branched stack with
  | nil => exact .inl hc
  | cons op ops ih =>
    have hlater : ∀ {branched' : Bool} {stack' : List (Nat × Option V)},
        c ∈ branch done value least (i + 1) branched' ops stack' →
        c ∈ stack' ∨ ∃ k, ∃ hk : k < (op :: ops).length, done.testBit (i + k) = false ∧
          ((op :: ops)[k].inv : WithTop ℚ) ≤ least ∧ (op :: ops)[k].kind ≠ .get ∧
          c.1 = done ||| 1 <<< (i + k) ∧ (c.2 = (op :: ops)[k].effect ∨
            (op :: ops)[k].determinate = false ∧ c.2 = value) := by
      intro branched' stack' hmem
      rcases ih hmem with hold | ⟨k, hk, hnew⟩
      · exact .inl hold
      · right
        rw [Nat.add_assoc, Nat.add_comm 1 k] at hnew
        exact ⟨k + 1, Nat.succ_lt_succ hk, hnew⟩
    unfold branch at hc
    split at hc
    · exact hlater hc
    · rename_i hbit
      split at hc
      · exact .inl hc
      · rename_i hinv
        split at hc
        · exact hlater hc
        · rename_i hkind
          split at hc
          · exact hlater hc
          · rcases hlater hc with hpushed | hnew
            · have hhere : ∀ {v : Option V}, (v = op.effect ∨ op.determinate = false ∧ v = value) →
                  c = (done ||| 1 <<< i, v) → c ∈ stack ∨ ∃ k, ∃ hk : k < (op :: ops).length,
                    done.testBit (i + k) = false ∧ ((op :: ops)[k].inv : WithTop ℚ) ≤ least ∧
                    (op :: ops)[k].kind ≠ .get ∧ c.1 = done ||| 1 <<< (i + k) ∧
                    (c.2 = (op :: ops)[k].effect ∨
                      (op :: ops)[k].determinate = false ∧ c.2 = value) := by
                intro v hv heq
                subst heq
                exact .inr ⟨0, Nat.succ_pos _, Bool.eq_false_iff.mpr hbit, not_lt.mp hinv,
                  hkind, rfl, hv⟩
              split at hpushed
              · rcases List.mem_cons.mp hpushed with heq | hold
                · exact hhere (.inl rfl) heq
                · exact .inl hold
              · rename_i hdet
                rcases List.mem_cons.mp hpushed with heq | hrest
                · exact hhere (.inr ⟨Bool.eq_false_iff.mpr hdet, rfl⟩) heq
                · rcases List.mem_cons.mp hrest with heq | hold
                  · exact hhere (.inl rfl) heq
                  · exact .inl hold
            · exact .inr hnew

/-- A delete without a response. -/
def Op.lostDel (op : Op V) : Prop := op.kind = .del ∧ op.determinate = false

omit [DecidableEq V] in
theorem Op.lostDel.effect {op : Op V} (h : op.lostDel) : op.effect = none := by
  unfold Op.effect
  rw [h.1]
  rfl

omit [DecidableEq V] in
theorem branch_reaches {before after : List (Op V)} {op : Op V} {i : Nat} {branched : Bool}
    {stack : List (Nat × Option V)} (hinv : ∀ x ∈ before ++ [op], (x.inv : WithTop ℚ) ≤ least)
    (hbit : done.testBit (i + before.length) = false) (hkind : op.kind ≠ .get)
    (hfirst : op.lostDel → branched = false ∧
      ∀ k (hk : k < before.length), done.testBit (i + k) = false → ¬ before[k].lostDel) :
    (done ||| 1 <<< (i + before.length), op.effect) ∈
        branch done value least i branched (before ++ op :: after) stack ∧
      (op.determinate = false → (done ||| 1 <<< (i + before.length), value) ∈
        branch done value least i branched (before ++ op :: after) stack) := by
  induction before generalizing i branched stack with
  | nil =>
    have hhead : (op.inv : WithTop ℚ) ≤ least := hinv op (List.mem_singleton_self op)
    have hbit' : done.testBit i = false := hbit
    rw [List.nil_append]
    unfold branch
    rw [if_neg (Bool.eq_false_iff.mp hbit'), if_neg (not_lt.mpr hhead), if_neg hkind]
    have hgo : ¬ (op.kind = .del ∧ (!op.determinate) = true ∧ branched = true) := by
      intro hskip
      have hlost : op.lostDel := ⟨hskip.1, by simpa using hskip.2.1⟩
      exact absurd hskip.2.2 (by rw [(hfirst hlost).1]; simp)
    rw [if_neg hgo]
    constructor
    · apply mem_branch_of_stack
      split
      · exact List.mem_cons_self
      · exact List.mem_cons_of_mem _ List.mem_cons_self
    · intro hdet
      apply mem_branch_of_stack
      rw [if_neg (Bool.eq_false_iff.mp hdet)]
      exact List.mem_cons_self
  | cons x before ih =>
    have hx : (x.inv : WithTop ℚ) ≤ least := hinv x List.mem_cons_self
    have hshift : i + (x :: before).length = i + 1 + before.length := by
      show i + (before.length + 1) = _
      omega
    rw [hshift] at hbit ⊢
    -- what the rest of the loop needs, whatever was done with `x`
    have hrest : ∀ {branched' : Bool} {stack' : List (Nat × Option V)},
        (op.lostDel → branched' = false) →
        (done ||| 1 <<< (i + 1 + before.length), op.effect) ∈
            branch done value least (i + 1) branched' (before ++ op :: after) stack' ∧
          (op.determinate = false → (done ||| 1 <<< (i + 1 + before.length), value) ∈
            branch done value least (i + 1) branched' (before ++ op :: after) stack') := by
      intro branched' stack' hbranched
      refine ih (fun y hy => hinv y (List.mem_cons_of_mem x hy)) hbit fun hlost => ?_
      refine ⟨hbranched hlost, fun k hk hkbit => ?_⟩
      exact (hfirst hlost).2 (k + 1) (Nat.succ_lt_succ hk)
        (by rw [← Nat.add_assoc, Nat.add_right_comm]; exact hkbit)
    have hsame : op.lostDel → branched = false := fun hlost => (hfirst hlost).1
    rw [List.cons_append]
    unfold branch
    split
    · exact hrest hsame
    · rename_i hxbit
      rw [if_neg (not_lt.mpr hx)]
      split
      · exact hrest hsame
      · split
        · exact hrest hsame
        · refine hrest fun hlost => ?_
          have hnot : ¬ x.lostDel :=
            (hfirst hlost).2 0 (Nat.succ_pos _) (Bool.eq_false_iff.mpr hxbit)
          rw [hsame hlost, Bool.false_or]
          unfold Op.lostDel at hnot
          simpa using hnot

end

theorem pushed (hv : Valid ops) {i : Fin ops.length} (hi : i ∈ pending ops done)
    (henabled : (placed ops).Enabled (pending ops done) i) (hkind : (ops.get i).kind ≠ .get)
    (hfirst : (ops.get i).lostDel → ∀ j ∈ pending ops done, j < i → ¬ (ops.get j).lostDel)
    (stack : List (Nat × Option V)) :
    (done ||| 1 <<< i.val, (ops.get i).effect) ∈
        branch done value (minRet done 0 ⊤ ops) 0 false ops stack ∧
      ((ops.get i).determinate = false → (done ||| 1 <<< i.val, value) ∈
        branch done value (minRet done 0 ⊤ ops) 0 false ops stack) := by
  have hinv := enabled_iff.mp henabled
  have hlen : (ops.take i).length = i := List.length_take_of_le i.isLt.le
  have hsplit : ops.take i ++ ops.get i :: ops.drop (i + 1) = ops := by
    rw [List.get_eq_getElem, ← List.drop_eq_getElem_cons i.isLt, List.take_append_drop]
  -- the operations before it were invoked no later
  have hbefore : ∀ x ∈ ops.take i ++ [ops.get i], (x.inv : WithTop ℚ) ≤ minRet done 0 ⊤ ops := by
    intro x hx
    rcases List.mem_append.mp hx with hx | hx
    · obtain ⟨k, hk, rfl⟩ := List.getElem_of_mem hx
      have hki : k < i := by rwa [hlen] at hk
      rw [List.getElem_take]
      have hle := List.pairwise_iff_getElem.mp hv.sorted k i (hki.trans i.isLt) i.isLt hki
      exact (WithTop.coe_le_coe.mpr hle).trans hinv
    · rw [List.mem_singleton.mp hx]
      exact hinv
  have hbit : done.testBit (0 + (ops.take i).length) = false := by
    rw [hlen, Nat.zero_add]
    exact mem_pending.mp hi
  have halone : (ops.get i).lostDel → false = false ∧ ∀ k (hk : k < (ops.take i).length),
      done.testBit (0 + k) = false → ¬ (ops.take i)[k].lostDel := by
    intro hlost
    refine ⟨rfl, fun k hk hkbit => ?_⟩
    have hki : k < i := by rwa [hlen] at hk
    rw [List.getElem_take]
    rw [Nat.zero_add] at hkbit
    exact hfirst hlost ⟨k, hki.trans i.isLt⟩ (mem_pending.mpr hkbit) hki
  have hreach := @branch_reaches V done value _ _ (ops.drop (i + 1)) _ 0 false stack hbefore hbit
    hkind halone
  rw [hlen, Nat.zero_add, hsplit] at hreach
  exact hreach

/-! ## A good pair has a good successor. -/

theorem exists_first (hv : Valid ops) {i : Fin ops.length} (hi : i ∈ pending ops done)
    (henabled : (placed ops).Enabled (pending ops done) i) (hlost : (ops.get i).lostDel) :
    ∃ j ∈ pending ops done, (placed ops).Enabled (pending ops done) j ∧ (ops.get j).lostDel ∧
      (∀ k ∈ pending ops done, k < j → ¬ (ops.get k).lostDel) ∧
      ∀ s, (placed ops).Completes ((pending ops done).erase i) s →
        (placed ops).Completes ((pending ops done).erase j) s := by
  -- the first delete without a response that is left
  have hex : ∃ j, ∃ hj : j < ops.length, (⟨j, hj⟩ : Fin ops.length) ∈ pending ops done ∧
      ops[j].lostDel := ⟨i, i.isLt, hi, hlost⟩
  classical
  obtain ⟨hj, hmem, hlostj⟩ := Nat.find_spec hex
  have hmin := fun k => @Nat.find_min _ _ hex k
  have hle : Nat.find hex ≤ i := Nat.find_min' hex ⟨i.isLt, hi, hlost⟩
  generalize Nat.find hex = j at hj hmem hlostj hmin hle
  have hinv : ops[j].inv ≤ (ops.get i).inv := by
    rcases Nat.lt_or_eq_of_le hle with hlt | heq
    · exact List.pairwise_iff_getElem.mp hv.sorted j i hj i.isLt hlt
    · exact le_of_eq (by subst heq; rfl)
  refine ⟨⟨j, hj⟩, hmem, ?_, hlostj, ?_, ?_⟩
  · exact fun k hk => (WithTop.coe_le_coe.mpr hinv).trans (henabled k hk)
  · exact fun k hk hkj hlostk => hmin k hkj ⟨k.isLt, hk, hlostk⟩
  · intro s hcompletes
    by_cases heq : (⟨j, hj⟩ : Fin ops.length) = i
    · rw [heq]
      exact hcompletes
    · -- the two act alike: both leave nothing in the register
      have heffect : ∀ k : Fin ops.length, (ops.get k).lostDel →
          (placed ops).act k = fun _ => some none := by
        intro k hk
        funext t
        have hdel : (ops.get k).kind = .del := hk.1
        rw [placed_write (by rw [hdel]; simp), hk.effect]
      have halike : (placed ops).act i = (placed ops).act ⟨j, hj⟩ := by
        rw [heffect i hlost, heffect ⟨j, hj⟩ hlostj]
      have hret : (placed ops).ret i = ⊤ := hv.wellTimed.optional_ret i hlost.2
      have hexchange := hcompletes.exchange halike hlost.2 hret
        (Finset.mem_erase.mpr ⟨heq, hmem⟩) (Finset.notMem_erase i _)
        (henabled.mono (Finset.erase_subset i _))
      rw [Finset.erase_right_comm, Finset.insert_erase] at hexchange
      · exact hexchange
      · exact Finset.mem_erase.mpr ⟨Ne.symm heq, hi⟩

omit [DecidableEq V] in
theorem card_mark_lt {i : Fin ops.length} (hi : i ∈ pending ops done) :
    (pending ops (done ||| 1 <<< i.val)).card < (pending ops done).card := by
  rw [pending_mark]
  exact Finset.card_erase_lt_of_mem hi

theorem good_branch (hv : Valid ops) (hgood : Good ops (done, value)) (hd : done < 2 ^ ops.length)
    (hleft : done ≠ (1 <<< ops.length) - 1)
    (hread : matchingRead done value (minRet done 0 ⊤ ops) 0 ops = none)
    (stack : List (Nat × Option V)) :
    ∃ c ∈ branch done value (minRet done 0 ⊤ ops) 0 false ops stack, Good ops c ∧
      c.1 < 2 ^ ops.length ∧ (pending ops c.1).card < (pending ops done).card := by
  -- a pushed pair for position `j` is good if the rest can be used up
  have hpush : ∀ {j : Fin ops.length} {s : Option V}, j ∈ pending ops done →
      (done ||| 1 <<< j.val, s) ∈ branch done value (minRet done 0 ⊤ ops) 0 false ops stack →
      (placed ops).Completes ((pending ops done).erase j) s →
      ∃ c ∈ branch done value (minRet done 0 ⊤ ops) 0 false ops stack, Good ops c ∧
        c.1 < 2 ^ ops.length ∧ (pending ops c.1).card < (pending ops done).card := by
    intro j s hj hmem hrest
    refine ⟨_, hmem, ?_, mark_lt hd j.isLt, card_mark_lt hj⟩
    show (placed ops).Completes (pending ops (done ||| 1 <<< j.val)) s
    rw [pending_mark]
    exact hrest
  have hcases : (placed ops).Completes (pending ops done) value := hgood
  generalize hP : pending ops done = P at hcases
  cases hcases with
  | done => exact absurd ((pending_eq_empty hd).mp hP) hleft
  | @act _ _ s' i hi henabled hact hrest =>
    subst hP
    by_cases hget : (ops.get i).kind = .get
    · -- a read of the current value would have been consumed
      have hobserved := ((placed_read hget).mp hact).1
      have hbit : done.testBit (0 + i) = false := by
        rw [Nat.zero_add]
        exact mem_pending.mp hi
      exact absurd hobserved
        (matchingRead_none hv.sorted hread i.isLt hbit (enabled_iff.mp henabled) hget)
    · rw [placed_write hget] at hact
      cases hact
      by_cases hlost : (ops.get i).lostDel
      · obtain ⟨j, hj, henj, hlostj, hfirst, hexchange⟩ := exists_first hv hi henabled hlost
        have heffect : (ops.get i).effect = (ops.get j).effect := by
          rw [hlost.effect, hlostj.effect]
        have hget' : (ops.get j).kind ≠ .get := by
          rw [hlostj.1]
          simp
        rw [heffect] at hrest
        exact hpush hj (pushed hv hj henj hget' (fun _ => hfirst) stack).1 (hexchange _ hrest)
      · exact hpush hi (pushed hv hi henabled hget (fun h => absurd h hlost) stack).1 hrest
  | @drop _ _ i hi henabled hoptional hrest =>
    subst hP
    have hget := (hv.unfinished _ (List.get_mem ops i) hoptional).2
    by_cases hlost : (ops.get i).lostDel
    · obtain ⟨j, hj, henj, hlostj, hfirst, hexchange⟩ := exists_first hv hi henabled hlost
      have hget' : (ops.get j).kind ≠ .get := by
        rw [hlostj.1]
        simp
      exact hpush hj ((pushed hv hj henj hget' (fun _ => hfirst) stack).2 hlostj.2)
        (hexchange _ hrest)
    · exact hpush hi ((pushed hv hi henabled hget (fun h => absurd h hlost) stack).2 hoptional)
        hrest

theorem good_of_branch (hd : done < 2 ^ ops.length) {c : Nat × Option V}
    (hc : c ∈ branch done value (minRet done 0 ⊤ ops) 0 false ops stack) :
    c ∈ stack ∨ c.1 < 2 ^ ops.length ∧ (Good ops c → Good ops (done, value)) := by
  rcases of_mem_branch hc with hold | ⟨k, hk, hbit, hinv, hkind, hmask, hvalue⟩
  · exact .inl hold
  · right
    rw [Nat.zero_add] at hbit hmask
    have hmem : (⟨k, hk⟩ : Fin ops.length) ∈ pending ops done := mem_pending.mpr hbit
    have hmark : pending ops c.1 = (pending ops done).erase ⟨k, hk⟩ := by
      rw [hmask]
      exact pending_mark done ⟨k, hk⟩
    refine ⟨by rw [hmask]; exact mark_lt hd hk, fun hgood => ?_⟩
    have hrest : (placed ops).Completes ((pending ops done).erase ⟨k, hk⟩) c.2 := hmark ▸ hgood
    have henabled : (placed ops).Enabled (pending ops done) ⟨k, hk⟩ := enabled_iff.mpr hinv
    rcases hvalue with heffect | ⟨hdet, hsame⟩
    · rw [heffect] at hrest
      exact .act ⟨k, hk⟩ hmem henabled (placed_write hkind _) hrest
    · rw [hsame] at hrest
      exact .drop ⟨k, hk⟩ hmem henabled hdet hrest

/-! ## The loop. -/

/-- The pair is waiting on the stack, or was visited with its reads placed. -/
def Seen (ops : List (Op V)) (stack visited : List (Nat × Option V)) (c : Nat × Option V) : Prop :=
  c ∈ stack ∨ ∃ done, consumeMatchingReads ops c.2 (ops.length + 1) c.1 = some done ∧
    (done, c.2) ∈ visited

/-- The state of the loop, with regard to the pair it started from. -/
structure Frontier (ops : List (Op V)) (root : Nat × Option V)
    (stack visited : List (Nat × Option V)) : Prop where
  small : ∀ c ∈ stack, c.1 < 2 ^ ops.length
  sound : ∀ c ∈ stack, Good ops c → Good ops root
  root : root.1 < 2 ^ ops.length ∧ Seen ops stack visited root
  kept : ∀ c ∈ visited, Good ops c → ∃ c', Good ops c' ∧ c'.1 < 2 ^ ops.length ∧
    (pending ops c'.1).card < (pending ops c.1).card ∧ Seen ops stack visited c'

namespace Frontier

variable {ops : List (Op V)} {root : Nat × Option V} {stack visited : List (Nat × Option V)}

theorem not_good_of_visited (h : Frontier ops root [] visited) {c : Nat × Option V}
    (hc : c ∈ visited) : ¬ Good ops c := by
  -- induction on the number of operations that are left
  generalize hn : (pending ops c.1).card = n
  induction n using Nat.strong_induction_on generalizing c with
  | _ n ih =>
    intro hgood
    obtain ⟨c', hgood', hlt, hcard, hseen⟩ := h.kept c hc hgood
    rcases hseen with hmem | ⟨done, hrun, hvisited⟩
    · exact absurd hmem List.not_mem_nil
    · obtain ⟨done', hrun', hs⟩ := settles c'.2 hlt
      rw [hrun] at hrun'
      cases hrun'
      have hle := Finset.card_le_card hs.subset
      have hless : (pending ops done).card < n := by omega
      exact ih _ hless hvisited rfl (hs.good.mp hgood')

theorem not_good (h : Frontier ops root [] visited) : ¬ Good ops root := by
  intro hgood
  rcases h.root.2 with hmem | ⟨done, hrun, hvisited⟩
  · exact absurd hmem List.not_mem_nil
  · obtain ⟨done', hrun', hs⟩ := settles root.2 h.root.1
    rw [hrun] at hrun'
    cases hrun'
    exact h.not_good_of_visited hvisited (hs.good.mp hgood)

theorem skip {done done' : Nat} {value : Option V}
    (h : Frontier ops root ((done, value) :: stack) visited)
    (hrun : consumeMatchingReads ops value (ops.length + 1) done = some done')
    (hvisited : (done', value) ∈ visited) : Frontier ops root stack visited := by
  have hseen : ∀ {c}, Seen ops ((done, value) :: stack) visited c → Seen ops stack visited c := by
    intro c hc
    rcases hc with hmem | hold
    · rcases List.mem_cons.mp hmem with rfl | hmem
      · exact .inr ⟨done', hrun, hvisited⟩
      · exact .inl hmem
    · exact .inr hold
  exact {
    small := fun c hc => h.small c (List.mem_cons_of_mem _ hc)
    sound := fun c hc => h.sound c (List.mem_cons_of_mem _ hc)
    root := ⟨h.root.1, hseen h.root.2⟩
    kept := fun c hc hgood => by
      obtain ⟨c', hgood', hlt, hcard, hs⟩ := h.kept c hc hgood
      exact ⟨c', hgood', hlt, hcard, hseen hs⟩ }

theorem visit (hv : Valid ops) {done done' : Nat} {value : Option V}
    (h : Frontier ops root ((done, value) :: stack) visited)
    (hrun : consumeMatchingReads ops value (ops.length + 1) done = some done')
    (hs : Settles ops value done done') (hleft : done' ≠ (1 <<< ops.length) - 1) :
    Frontier ops root (branch done' value (minRet done' 0 ⊤ ops) 0 false ops stack)
      ((done', value) :: visited) := by
  have hseen : ∀ {c}, Seen ops ((done, value) :: stack) visited c →
      Seen ops (branch done' value (minRet done' 0 ⊤ ops) 0 false ops stack)
        ((done', value) :: visited) c := by
    intro c hc
    rcases hc with hmem | ⟨d, hd, hold⟩
    · rcases List.mem_cons.mp hmem with rfl | hmem
      · exact .inr ⟨done', hrun, List.mem_cons_self⟩
      · exact .inl (mem_branch_of_stack hmem)
    · exact .inr ⟨d, hd, List.mem_cons_of_mem _ hold⟩
  exact {
    small := fun c hc => by
      rcases good_of_branch hs.lt hc with hold | hnew
      · exact h.small c (List.mem_cons_of_mem _ hold)
      · exact hnew.1
    sound := fun c hc hgood => by
      rcases good_of_branch hs.lt hc with hold | hnew
      · exact h.sound c (List.mem_cons_of_mem _ hold) hgood
      · exact h.sound _ List.mem_cons_self (hs.good.mpr (hnew.2 hgood))
    root := ⟨h.root.1, hseen h.root.2⟩
    kept := fun c hc hgood => by
      rcases List.mem_cons.mp hc with rfl | hold
      · obtain ⟨c', hmem, hgood', hlt, hcard⟩ := good_branch hv hgood hs.lt hleft hs.none_left stack
        exact ⟨c', hgood', hlt, hcard, .inl hmem⟩
      · obtain ⟨c', hgood', hlt, hcard, hold'⟩ := h.kept c hold hgood
        exact ⟨c', hgood', hlt, hcard, hseen hold'⟩ }

end Frontier

/-- What an answer says about the pair the search started from. -/
structure Answers (ops : List (Op V)) (root : Nat × Option V) (maxStates : Nat)
    (res : CheckResult) : Prop where
  sound : res.ok = true → Good ops root
  complete : Good ops root → res.states ≤ maxStates → res.ok = true

theorem search_spec (hv : Valid ops) {root : Nat × Option V} {maxStates : Nat}
    {visited : List (Nat × Option V)} {states : Nat} (h : Frontier ops root stack visited)
    (hfuel : stack.length + 2 * ops.length * (maxStates - states) < fuel) :
    ∃ res, search ops maxStates fuel stack visited states = some res ∧
      Answers ops root maxStates res := by
  induction fuel generalizing stack visited states with
  | zero => cases hfuel
  | succ fuel ih =>
    cases stack with
    | nil =>
      refine ⟨_, rfl, ?_, fun hgood => absurd hgood h.not_good⟩
      intro hok
      cases hok
    | cons c stack =>
      obtain ⟨done, value⟩ := c
      obtain ⟨done', hrun, hs⟩ := settles value (h.small _ List.mem_cons_self)
      have hlength : ((done, value) :: stack).length = stack.length + 1 := rfl
      unfold search
      rw [hrun]
      dsimp only
      split
      · -- everything is placed
        rename_i hall
        have hgood : Good ops (done', value) := by
          show (placed ops).Completes (pending ops done') value
          rw [(pending_eq_empty hs.lt).mpr hall]
          exact .done value
        exact ⟨_, rfl, fun _ => h.sound _ List.mem_cons_self (hs.good.mpr hgood), fun _ _ => rfl⟩
      · rename_i hleft
        split
        · rename_i hvisited
          exact ih (h.skip hrun hvisited) (by omega)
        · split
          · rename_i hlimit
            refine ⟨_, rfl, ?_, fun _ hle => ?_⟩
            · intro hok
              cases hok
            · have hle' : states + 1 ≤ maxStates := hle
              omega
          · rename_i hlimit
            apply ih (h.visit hv hrun hs hleft)
            have hpushed : (branch done' value (minRet done' 0 ⊤ ops) 0 false ops stack).length ≤
                stack.length + 2 * ops.length := length_branch_le ops 0 false stack
            -- one state fewer may be visited
            have hstep : 2 * ops.length * (maxStates - states) =
                2 * ops.length * (maxStates - (states + 1)) + 2 * ops.length := by
              have hsub : maxStates - states = maxStates - (states + 1) + 1 := by omega
              rw [hsub, Nat.mul_add, Nat.mul_one]
            omega

theorem search_mono {maxStates fuel' : Nat} {visited : List (Nat × Option V)} {states : Nat}
    {res : CheckResult} (h : search ops maxStates fuel stack visited states = some res)
    (hle : fuel ≤ fuel') :
    search ops maxStates fuel' stack visited states = some res := by
  induction fuel generalizing fuel' stack visited states with
  | zero => cases h
  | succ fuel ih =>
    obtain ⟨more, rfl⟩ : ∃ more, fuel' = more + 1 := ⟨fuel' - 1, by omega⟩
    have hle' : fuel ≤ more := by omega
    cases stack with
    | nil => exact h
    | cons c stack =>
      unfold search at h ⊢
      cases hrun : consumeMatchingReads ops c.2 (ops.length + 1) c.1 with
      | none =>
        rw [hrun] at h
        cases h
      | some done =>
        rw [hrun] at h
        dsimp only at h ⊢
        by_cases hall : done = (1 <<< ops.length) - 1
        · rw [if_pos hall] at h ⊢
          exact h
        · rw [if_neg hall] at h ⊢
          by_cases hvisited : (done, c.2) ∈ visited
          · rw [if_pos hvisited] at h ⊢
            exact ih h hle'
          · rw [if_neg hvisited] at h ⊢
            by_cases hlimit : maxStates < states + 1
            · rw [if_pos hlimit] at h ⊢
              exact h
            · rw [if_neg hlimit] at h ⊢
              exact ih h hle'

end Flotilla.Chaos
