/-
  Chaos.CheckerCorrect — `check_key` decides linearizability.

  `Linearizable` is said of the records, without a word of the checker: some of
  the writes without a response are kept, and they and everything that had a
  response stand in an order that real time and a register allow.

  `build_ops` leaves out writes without a response that no read can have seen: a
  put whose value no read observed, and a delete that was invoked after the last
  read that found nothing.  Such a write can be taken out of any order, since the
  next operation behind it is a write or there is none (`legal_skip`).
-/
import Flotilla.Chaos.CheckerSearch

namespace Flotilla.Chaos

open Schedules

variable {V : Type} [DecidableEq V]

/-! ## Linearizable histories. -/

/-- The records as operations on a register; without a response an operation never ends, and may be
left out. -/
def recordRegister : Timed (Record V) (Option V) (WithTop ℚ) where
  inv r := r.invoked
  ret r := if r.determinate then (r.returned : WithTop ℚ) else ⊤
  act r value :=
    match r.op with
    | .put => some r.value
    | .del => some none
    | .get => if r.result = value then some value else none
  optional r := r.determinate = false

/-- A read without a response says nothing. -/
def Record.counts (r : Record V) : Bool := r.determinate || r.op != .get

/-- Some writes without a response are kept, and they and all the operations with a response have
an order that respects real time and the register, from the value `initial` on. -/
def Linearizable (raw : List (Record V)) (initial : Option V) : Prop :=
  ∃ order, recordRegister.Orders (raw.filter Record.counts).toFinset initial order

/-! ## Writes that no read can have seen. -/

omit [DecidableEq V] in
/-- What a write leaves in the register. -/
def Record.effect (r : Record V) : Option V := if r.op = .put then r.value else none

variable {r : Record V} {raw : List (Record V)}

theorem act_write (h : r.op ≠ .get) (s : Option V) :
    recordRegister.act r s = some r.effect := by
  unfold recordRegister Record.effect
  dsimp only
  split
  · rename_i hput
    rw [if_pos hput]
  · rename_i hdel
    rw [if_neg (by rw [hdel]; simp)]
  · rename_i hget
    exact absurd hget h

theorem legal_unobserved {order : List (Record V)} {s t : Option V}
    (h : recordRegister.Legal s order) (hreads : ∀ r ∈ order, r.op = .get → r.result ≠ s) :
    recordRegister.Legal t order := by
  cases order with
  | nil => trivial
  | cons r order =>
    obtain ⟨s', hact, hrest⟩ := h
    by_cases hget : r.op = .get
    · exfalso
      have hmatch : (if r.result = s then some s else none) = some s' := by
        have hcase : recordRegister.act r s = if r.result = s then some s else none := by
          unfold recordRegister
          dsimp only
          rw [hget]
        exact hcase.symm.trans hact
      rw [if_neg (hreads r List.mem_cons_self hget)] at hmatch
      cases hmatch
    · rw [act_write hget] at hact
      exact ⟨s', (act_write hget t).trans hact, hrest⟩

theorem legal_skip {skip : Record V → Bool} {order : List (Record V)} {s : Option V}
    (h : recordRegister.Legal s order) (hwrite : ∀ r ∈ order, skip r = true → r.op ≠ .get)
    (hunseen : order.Pairwise fun a b => skip a = true → b.op = .get → b.result ≠ a.effect) :
    recordRegister.Legal s (order.filter fun r => !skip r) := by
  induction order generalizing s with
  | nil => trivial
  | cons r order ih =>
    obtain ⟨s', hact, hrest⟩ := h
    obtain ⟨hhead, htail⟩ := List.pairwise_cons.mp hunseen
    have hwrite' : ∀ a ∈ order, skip a = true → a.op ≠ .get :=
      fun a ha => hwrite a (List.mem_cons_of_mem r ha)
    cases hskip : skip r with
    | true =>
      rw [List.filter_cons_of_neg (by rw [hskip]; simp)]
      rw [act_write (hwrite r List.mem_cons_self hskip)] at hact
      cases hact
      exact ih (legal_unobserved hrest fun b hb hget => hhead b hb hskip hget) hwrite' htail
    | false =>
      rw [List.filter_cons_of_pos (by rw [hskip]; rfl)]
      exact ⟨s', hact, ih hrest hwrite' htail⟩

omit [DecidableEq V] in
theorem le_lastNoneRead (hr : r ∈ raw) (hget : r.op = .get) (hdet : r.determinate = true)
    (hnone : r.result = none) :
    r.returned ≤ lastNoneRead raw := by
  have hmem : r.returned ∈ (raw.filter fun r =>
      r.op = .get ∧ r.determinate ∧ r.result = none).map Record.returned :=
    List.mem_map_of_mem (List.mem_filter.mpr ⟨hr, by simp [hget, hdet, hnone]⟩)
  unfold lastNoneRead
  generalize (raw.filter fun r => r.op = .get ∧ r.determinate ∧ r.result = none).map
    Record.returned = ends at hmem ⊢
  cases hmax : ends.max? with
  | none =>
    rw [List.max?_eq_none_iff.mp hmax] at hmem
    exact absurd hmem List.not_mem_nil
  | some a => exact (List.max?_le_iff hmax).mp le_rfl _ hmem

omit [DecidableEq V] in
theorem mem_observedValues (hr : r ∈ raw) (hget : r.op = .get) (hdet : r.determinate = true) :
    r.result ∈ observedValues raw :=
  List.mem_map_of_mem (List.mem_filter.mpr ⟨hr, by simp [hget, hdet]⟩)

theorem skips_indeterminate (h : skips raw r = true) :
    r.determinate = false := by
  unfold skips at h
  rw [Bool.and_eq_true] at h
  simpa using h.1

theorem unseen_of_skips {a b : Record V} (ha : skips raw a = true) (hcounts : a.counts = true)
    (hb : b ∈ raw) (hget : b.op = .get) (hdet : b.determinate = true)
    (htime : ¬ recordRegister.ret b < recordRegister.inv a) : b.result ≠ a.effect := by
  have hlost := skips_indeterminate ha
  intro hsame
  unfold skips at ha
  rw [hlost] at ha
  cases hop : a.op with
  | get =>
    unfold Record.counts at hcounts
    rw [hlost, hop] at hcounts
    cases hcounts
  | put =>
    rw [hop] at ha
    have hunobserved : a.value ∉ observedValues raw := by simpa using ha
    unfold Record.effect at hsame
    rw [if_pos hop] at hsame
    exact hunobserved (hsame ▸ mem_observedValues hb hget hdet)
  | del =>
    rw [hop] at ha
    have hlate : lastNoneRead raw < a.invoked := by simpa using ha
    unfold Record.effect at hsame
    rw [if_neg (by rw [hop]; simp)] at hsame
    -- the read found nothing, so it had ended when the delete was invoked
    have hended := (le_lastNoneRead hb hget hdet hsame).trans_lt hlate
    apply htime
    show (if b.determinate then (b.returned : WithTop ℚ) else ⊤) < (a.invoked : WithTop ℚ)
    rw [if_pos hdet]
    exact WithTop.coe_lt_coe.mpr hended

def kept (raw : List (Record V)) : List (Record V) := raw.filter fun r => !skips raw r

theorem counts_of_kept (h : r ∈ kept raw) :
    r ∈ raw.filter Record.counts := by
  obtain ⟨hr, hkeep⟩ := List.mem_filter.mp h
  refine List.mem_filter.mpr ⟨hr, ?_⟩
  unfold Record.counts
  by_contra hne
  have hlost : r.determinate = false ∧ r.op = .get := by simpa using hne
  unfold skips at hkeep
  rw [hlost.1, hlost.2] at hkeep
  cases hkeep

theorem linearizable_iff_kept {initial : Option V} :
    Linearizable raw initial ↔ ∃ order, recordRegister.Orders (kept raw).toFinset initial order := by
  constructor
  · intro h
    obtain ⟨order, ho⟩ := h
    have hraw : ∀ r ∈ order, r ∈ raw ∧ r.counts = true := fun r hr =>
      List.mem_filter.mp (List.mem_toFinset.mp (ho.subset r hr))
    refine ⟨order.filter fun r => !skips raw r, ho.nodup.filter _, ?_, ?_,
      ho.realTime.filter _, legal_skip ho.legal ?_ ?_⟩
    · intro r hr
      obtain ⟨hr, hkeep⟩ := List.mem_filter.mp hr
      exact List.mem_toFinset.mpr (List.mem_filter.mpr ⟨(hraw r hr).1, hkeep⟩)
    · intro r hr hneeded
      have hmem := List.mem_toFinset.mp hr
      refine List.mem_filter.mpr ⟨?_, (List.mem_filter.mp hmem).2⟩
      exact ho.mandatory r (List.mem_toFinset.mpr (counts_of_kept hmem)) hneeded
    · intro r hr hskip hget
      have hcounts := (hraw r hr).2
      unfold Record.counts at hcounts
      rw [skips_indeterminate hskip, hget] at hcounts
      cases hcounts
    · refine ho.realTime.imp_of_mem fun {a b} ha hb htime hskip hget => ?_
      have hdet : b.determinate = true := by
        have hcounts := (hraw b hb).2
        unfold Record.counts at hcounts
        rw [hget] at hcounts
        simpa using hcounts
      exact unseen_of_skips hskip (hraw a ha).2 (hraw b hb).1 hget hdet htime
  · intro h
    obtain ⟨order, ho⟩ := h
    refine ⟨order, { ho with
      subset := fun r hr => List.mem_toFinset.mpr
        (counts_of_kept (List.mem_toFinset.mp (ho.subset r hr)))
      mandatory := fun r hr hneeded => ?_ }⟩
    have hraw := (List.mem_filter.mp (List.mem_toFinset.mp hr)).1
    apply ho.mandatory r _ hneeded
    refine List.mem_toFinset.mpr (List.mem_filter.mpr ⟨hraw, ?_⟩)
    by_contra hskip
    exact hneeded (skips_indeterminate (by simpa using hskip))

/-! ## From records to positions. -/

theorem recordRegister_eq : (recordRegister : Timed (Record V) _ _) = register.comap Record.toOp := by
  have hact : ∀ (r : Record V) (s : Option V), recordRegister.act r s = register.act r.toOp s := by
    intro r s
    show recordRegister.act r s = if r.op = .get then
      (if (if r.op = .get then r.result else none) = s then some s else none) else some r.toOp.effect
    by_cases hget : r.op = .get
    · rw [if_pos hget, if_pos hget]
      unfold recordRegister
      dsimp only
      rw [hget]
    · rw [if_neg hget, act_write hget]
      rfl
  have hregister : (recordRegister : Timed (Record V) _ _).act = (register.comap Record.toOp).act :=
    funext fun r => funext fun s => hact r s
  unfold recordRegister register Timed.comap at *
  dsimp only at hregister ⊢
  rw [hregister]
  rfl

/-- The operations as the search gets them. -/
def sortedOps (raw : List (Record V)) : List (Op V) :=
  (buildOps raw).insertionSort fun a b => a.inv ≤ b.inv

theorem mem_sortedOps {op : Op V} :
    op ∈ sortedOps raw ↔ ∃ r ∈ kept raw, r.toOp = op := by
  unfold sortedOps
  rw [List.mem_insertionSort]
  exact List.mem_map

theorem sortedOps_valid (hwindow : ∀ r ∈ raw, r.determinate = true → r.invoked ≤ r.returned) :
    Valid (sortedOps raw) where
  sorted := by
    exact List.pairwise_insertionSort _ _
  window op hop := by
    obtain ⟨r, hr, rfl⟩ := mem_sortedOps.mp hop
    show (r.invoked : WithTop ℚ) ≤ if r.determinate then (r.returned : WithTop ℚ) else ⊤
    split
    · rename_i hdet
      exact WithTop.coe_le_coe.mpr (hwindow r (List.mem_filter.mp hr).1 hdet)
    · exact le_top
  unfinished op hop hlost := by
    obtain ⟨r, hr, rfl⟩ := mem_sortedOps.mp hop
    have hdet : r.determinate = false := hlost
    refine ⟨?_, fun hget => ?_⟩
    · show (if r.determinate then (r.returned : WithTop ℚ) else ⊤) = ⊤
      rw [hdet]
      rfl
    · have hcounts := (List.mem_filter.mp (counts_of_kept hr)).2
      have hop' : r.op = .get := hget
      unfold Record.counts at hcounts
      rw [hdet, hop'] at hcounts
      cases hcounts

theorem sortedOps_nodup (hids : (raw.map Record.id).Nodup) :
    (sortedOps raw).Nodup := by
  apply (List.perm_insertionSort _ _).nodup_iff.mpr
  have hkept : ((kept raw).map Record.id).Nodup :=
    hids.sublist (List.Sublist.map _ List.filter_sublist)
  refine List.Nodup.of_map Op.opId ?_
  show (((kept raw).map Record.toOp).map Op.opId).Nodup
  rw [List.map_map]
  exact hkept

theorem linearizable_iff_good (hids : (raw.map Record.id).Nodup)
    (hwindow : ∀ r ∈ raw, r.determinate = true → r.invoked ≤ r.returned) {initial : Option V} :
    Linearizable raw initial ↔ Good (sortedOps raw) (0, initial) := by
  have hinj : Set.InjOn Record.toOp ((kept raw).toFinset : Set (Record V)) := by
    intro r hr r' hr' heq
    have hmem : ∀ {x : Record V}, x ∈ ((kept raw).toFinset : Set (Record V)) → x ∈ raw :=
      fun hx => (List.mem_filter.mp (List.mem_toFinset.mp hx)).1
    exact List.inj_on_of_nodup_map hids (hmem hr) (hmem hr') (congrArg Op.opId heq)
  have hget : Set.InjOn (sortedOps raw).get ((Finset.univ : Finset (Fin (sortedOps raw).length)) :
      Set (Fin (sortedOps raw).length)) :=
    (List.nodup_iff_injective_get.mp (sortedOps_nodup hids)).injOn
  have himage : (kept raw).toFinset.image Record.toOp = Finset.univ.image (sortedOps raw).get := by
    ext op
    rw [Finset.mem_image, Finset.mem_image]
    constructor
    · intro h
      obtain ⟨r, hr, heq⟩ := h
      obtain ⟨i, hi⟩ := List.get_of_mem (mem_sortedOps.mpr ⟨r, List.mem_toFinset.mp hr, heq⟩)
      exact ⟨i, Finset.mem_univ i, hi⟩
    · intro h
      obtain ⟨i, _, heq⟩ := h
      obtain ⟨r, hr, hop⟩ := mem_sortedOps.mp (heq ▸ List.get_mem (sortedOps raw) i)
      exact ⟨r, List.mem_toFinset.mpr hr, hop⟩
  have hall : pending (sortedOps raw) 0 = Finset.univ := by
    ext i
    rw [mem_pending, Nat.zero_testBit]
    simp
  rw [linearizable_iff_kept, recordRegister_eq, Timed.orders_comap hinj, himage,
    ← Timed.orders_comap hget]
  show (∃ order, (placed (sortedOps raw)).Orders Finset.univ initial order) ↔
    (placed (sortedOps raw)).Completes (pending (sortedOps raw) 0) initial
  rw [hall, Timed.completes_iff (sortedOps_valid hwindow).wellTimed]

/-! ## The checker. -/

theorem length_sortedOps_le (raw : List (Record V)) : (sortedOps raw).length ≤ raw.length := by
  unfold sortedOps buildOps
  rw [List.length_insertionSort, List.length_map]
  exact List.length_filter_le _ _

/-- **`check_key` is sound and complete, and ends.**  For every history with distinct ids whose
operations do not end before they begin: from some fuel on the checker has an answer; if that is yes
there is an order, and if there is an order the answer is yes unless more than `maxStates` states were
visited. -/
theorem checkKey_correct {raw : List (Record V)} (hids : (raw.map Record.id).Nodup)
    (hwindow : ∀ r ∈ raw, r.determinate = true → r.invoked ≤ r.returned) (initial : Option V)
    (maxStates : Nat) :
    ∃ res, (∀ fuel, 2 * raw.length * maxStates + 2 ≤ fuel →
        checkKey fuel raw initial maxStates = some res) ∧
      (res.ok = true → Linearizable raw initial) ∧
      (Linearizable raw initial → res.states ≤ maxStates → res.ok = true) := by
  have hvalid := sortedOps_valid hwindow
  rw [linearizable_iff_good hids hwindow]
  by_cases hempty : (buildOps raw).isEmpty = true
  · refine ⟨⟨true, "empty", 0⟩, fun fuel _ => if_pos hempty, fun _ => ?_, fun _ _ => rfl⟩
    -- nothing is left to place
    have hnil : sortedOps raw = [] := by
      unfold sortedOps
      rw [List.isEmpty_iff.mp hempty]
      rfl
    rw [hnil]
    exact .done initial
  · have hfrontier : Frontier (sortedOps raw) (0, initial) [(0, initial)] [] := {
      small := fun c hc => by
        rw [List.mem_singleton.mp hc]
        exact Nat.two_pow_pos _
      sound := fun c hc hgood => by
        rw [List.mem_singleton.mp hc] at hgood
        exact hgood
      root := ⟨Nat.two_pow_pos _, .inl List.mem_cons_self⟩
      kept := fun c hc => absurd hc List.not_mem_nil }
    have hbound : 2 * (sortedOps raw).length * maxStates ≤ 2 * raw.length * maxStates :=
      Nat.mul_le_mul_right _ (Nat.mul_le_mul_left _ (length_sortedOps_le raw))
    have hfuel : [((0 : Nat), initial)].length + 2 * (sortedOps raw).length * (maxStates - 0) <
        2 * raw.length * maxStates + 2 := by
      rw [Nat.sub_zero]
      show 1 + _ < _
      omega
    obtain ⟨res, hrun, hanswer⟩ := search_spec hvalid hfrontier hfuel
    refine ⟨res, fun fuel hle => ?_, hanswer.sound, hanswer.complete⟩
    unfold checkKey
    rw [if_neg hempty]
    exact search_mono hrun hle

/-- A put and two deletes without a response; a read sees the put, and a later one sees nothing. -/
def lostWrites : List (Record Nat) :=
  [{ id := 0, op := .put, invoked := 1, returned := 2, outcome := .ok, value := some 1 },
    { id := 1, op := .put, invoked := 3, value := some 2 },
    { id := 2, op := .del, invoked := 3 },
    { id := 3, op := .del, invoked := 4 },
    { id := 4, op := .get, invoked := 10, returned := 11, outcome := .ok, result := some 2 },
    { id := 5, op := .get, invoked := 12, returned := 13, outcome := .notfound }]

/-- The same, and then the first value comes back. -/
def comesBack : List (Record Nat) :=
  lostWrites ++
    [{ id := 6, op := .get, invoked := 14, returned := 15, outcome := .ok, result := some 1 }]

theorem checkKey_correct_lostWrites :
    checkKey 602 lostWrites none 50 = some ⟨true, "linearizable", 10⟩ ∧
      Linearizable lostWrites none ∧ ¬ Linearizable comesBack none := by
  have hrun : checkKey 602 lostWrites none 50 = some ⟨true, "linearizable", 10⟩ := by
    decide +kernel
  have hback : checkKey 702 comesBack none 50 = some ⟨false, "no valid linearization", 16⟩ := by
    decide +kernel
  obtain ⟨res, hres, hsound, _⟩ := @checkKey_correct Nat _ lostWrites (by decide +kernel)
    (by decide +kernel) none 50
  obtain ⟨res', hres', _, hcomplete⟩ := @checkKey_correct Nat _ comesBack (by decide +kernel)
    (by decide +kernel) none 50
  have hok : res = ⟨true, "linearizable", 10⟩ :=
    Option.some.inj ((hres 602 (by decide)).symm.trans hrun)
  have hno : res' = ⟨false, "no valid linearization", 16⟩ :=
    Option.some.inj ((hres' 702 (by decide)).symm.trans hback)
  refine ⟨hrun, hsound (by rw [hok]), fun hlin => ?_⟩
  have hyes := hcomplete hlin (by rw [hno]; decide)
  rw [hno] at hyes
  cases hyes

end Flotilla.Chaos
