/-
  Server.Ranges — ranges under splits, and the routing table.

  A split changes one end of a range, so the range of a group is a function of
  the splits in its log (`rangeAfter`).  A `Tiling` is a family of ranges that
  covers every key once, with a routing table of their starts; it is what the
  groups of a node are at any time.
-/
import Flotilla.Server.Node

namespace Flotilla.Server

open Flotilla.Txn (Key)

/-! ## The range that a log leaves. -/

/-- The effect of an entry on the range: `ApplySplit` of a child that does not exist yet. -/
def RangeDesc.shrink (d : RangeDesc) : Command → RangeDesc
  | .split _ key => if d.Contains key ∧ key ≠ d.start then { d with endKey := key } else d
  | _ => d

def rangeAfter (d : RangeDesc) (log : List Command) : RangeDesc := log.foldl RangeDesc.shrink d

variable {d : RangeDesc} {x key : Key} {log : List Command} {c : Nat} {routing : List (Key × Nat)}

theorem shrink_split (hx : d.Contains x) (hne : x ≠ d.start) (c : Nat) :
    d.shrink (.split c x) = { d with endKey := x } := if_pos ⟨hx, hne⟩

theorem shrink_of_not_split {cmd : Command} (h : ∀ c x, cmd ≠ .split c x) :
    d.shrink cmd = d := by
  unfold RangeDesc.shrink
  split
  · rename_i c x
    exact absurd rfl (h c x)
  · rfl

theorem rangeAfter_concat (d : RangeDesc) (log : List Command) (cmd : Command) :
    rangeAfter d (log ++ [cmd]) = (rangeAfter d log).shrink cmd := by
  unfold rangeAfter
  rw [foldl_append]
  rfl

theorem shrink_start (d : RangeDesc) (cmd : Command) :
    (d.shrink cmd).start = d.start ∧ (d.shrink cmd).id = d.id := by
  unfold RangeDesc.shrink
  split
  · split <;> exact ⟨rfl, rfl⟩
  · exact ⟨rfl, rfl⟩

theorem rangeAfter_start (d : RangeDesc) (log : List Command) :
    (rangeAfter d log).start = d.start ∧ (rangeAfter d log).id = d.id := by
  induction log generalizing d with
  | nil => exact ⟨rfl, rfl⟩
  | cons cmd log ih =>
    obtain ⟨hs, hi⟩ := ih (d.shrink cmd)
    obtain ⟨hs', hi'⟩ := shrink_start d cmd
    exact ⟨hs.trans hs', hi.trans hi'⟩

theorem contains_shrink {cmd : Command} :
    ((d.shrink cmd).Contains key → d.Contains key) ∧
      (d.Contains key → (∀ c x, cmd = .split c x → ¬ x ≤ key) → (d.shrink cmd).Contains key) := by
  unfold RangeDesc.shrink
  split
  · rename_i c x
    split
    · rename_i hx
      constructor
      · rintro ⟨hle, hend⟩
        refine ⟨hle, ?_⟩
        rcases hend with hnil | hlt
        · -- a split key is never empty: it lies above the start
          have hnil : x = [] := hnil
          have hstart : d.start ≤ x := hx.1.1
          rw [hnil] at hstart hx
          exact absurd (le_antisymm (le_of_not_gt (not_lt_nil _)) hstart) hx.2
        · exact hx.1.2.imp id (fun hend => lt_trans hlt hend)
      · intro hin hcut
        exact ⟨hin.1, .inr (lt_of_not_ge (hcut c x rfl))⟩
    · exact ⟨id, fun hin _ => hin⟩
  · exact ⟨id, fun hin _ => hin⟩

theorem contains_of_rangeAfter (h : (rangeAfter d log).Contains key) : d.Contains key := by
  induction log generalizing d with
  | nil => exact h
  | cons cmd log ih => exact contains_shrink.1 (ih h)

theorem contains_rangeAfter (h : d.Contains key)
    (hcut : ∀ cmd ∈ log, ∀ c x, cmd = .split c x → ¬ x ≤ key) :
    (rangeAfter d log).Contains key := by
  induction log generalizing d with
  | nil => exact h
  | cons cmd log ih =>
    exact ih (contains_shrink.2 h (hcut cmd mem_cons_self))
      (fun cmd' hc => hcut cmd' (mem_cons_of_mem cmd hc))

theorem rangeAfter_append (d : RangeDesc) (log log' : List Command) :
    rangeAfter d (log ++ log') = rangeAfter (rangeAfter d log) log' := foldl_append

theorem contains_start_rangeAfter (h : d.Contains d.start) (log : List Command) :
    (rangeAfter d log).Contains d.start := by
  induction log generalizing d with
  | nil => exact h
  | cons cmd log ih =>
    have hshrink : (d.shrink cmd).Contains (d.shrink cmd).start := by
      rw [(shrink_start d cmd).1]
      unfold RangeDesc.shrink
      split
      · split
        · rename_i hx
          exact ⟨le_refl _, .inr (lt_of_le_of_ne hx.1.1 (fun heq => hx.2 heq.symm))⟩
        · exact h
      · exact h
    have := ih hshrink
    rw [(shrink_start d cmd).1] at this
    exact this

theorem exists_split_of_lost (h : d.Contains key) (hlost : ¬ (rangeAfter d log).Contains key) :
    ∃ a c x, log[a]? = some (Command.split c x) ∧ x ≤ key ∧
      (rangeAfter d (log.take a)).Contains key ∧
      ¬ (rangeAfter d (log.take (a + 1))).Contains key := by
  induction log generalizing d with
  | nil => exact absurd h hlost
  | cons cmd log ih =>
    by_cases hnext : (d.shrink cmd).Contains key
    · obtain ⟨a, c, x, ha, hle, hin, hout⟩ := ih hnext hlost
      exact ⟨a + 1, c, x, ha, hle, hin, hout⟩
    · have hcut : ∃ c x, cmd = .split c x ∧ x ≤ key := by
        by_contra hno
        refine hnext (contains_shrink.2 h fun c x heq hle => hno ⟨c, x, heq, hle⟩)
      obtain ⟨c, x, rfl, hle⟩ := hcut
      exact ⟨0, c, x, rfl, hle, h, hnext⟩

/-! ## Cutting a range in two. -/

theorem contains_cut (hx : d.Contains x) (hne : x ≠ d.start) (c : Nat) :
    d.Contains key ↔
      ({ d with endKey := x } : RangeDesc).Contains key ∨
        (⟨c, x, d.endKey⟩ : RangeDesc).Contains key := by
  have hlt : d.start < x := lt_of_le_of_ne hx.1 (fun heq => hne heq.symm)
  have hnil : x ≠ [] := by
    rintro rfl
    exact not_lt_nil _ hlt
  constructor
  · rintro ⟨hle, hend⟩
    rcases lt_or_ge key x with hbelow | habove
    · exact .inl ⟨hle, .inr hbelow⟩
    · exact .inr ⟨habove, hend⟩
  · rintro (⟨hle, hend⟩ | ⟨hle, hend⟩)
    · exact ⟨hle, hx.2.imp id (fun hend' => lt_trans (hend.resolve_left hnil) hend')⟩
    · exact ⟨le_trans hx.1 hle, hend⟩

theorem cut_apart (hx : d.Contains x) (hne : x ≠ d.start)
    (hleft : ({ d with endKey := x } : RangeDesc).Contains key)
    (hright : (⟨c, x, d.endKey⟩ : RangeDesc).Contains key) : False := by
  have hlt : d.start < x := lt_of_le_of_ne hx.1 (fun heq => hne heq.symm)
  have hnil : x ≠ [] := by
    rintro rfl
    exact not_lt_nil _ hlt
  exact absurd (hleft.2.resolve_left hnil) (not_lt_of_ge hright.1)

/-! ## Routes. -/

theorem mem_insertRoute (hfree : ∀ route ∈ routing, route.1 ≠ x) {route : Key × Nat} :
    route ∈ insertRoute x c routing ↔ route = (x, c) ∨ route ∈ routing := by
  induction routing with
  | nil => simp [insertRoute]
  | cons r routing ih =>
    have hr : x ≠ r.1 := fun heq => hfree r mem_cons_self heq.symm
    rw [insertRoute]
    split
    · exact mem_cons
    · rw [mem_cons, ih (fun r' h => hfree r' (mem_cons_of_mem r h)), mem_cons]
      exact or_left_comm

theorem sorted_insertRoute (hfree : ∀ route ∈ routing, route.1 ≠ x)
    (h : routing.Pairwise (fun a b => a.1 < b.1)) :
    (insertRoute x c routing).Pairwise (fun a b => a.1 < b.1) := by
  induction routing with
  | nil => exact pairwise_singleton _ _
  | cons r routing ih =>
    obtain ⟨hhead, htail⟩ := pairwise_cons.mp h
    have hfree' : ∀ route ∈ routing, route.1 ≠ x := fun r' hr' => hfree r' (mem_cons_of_mem r hr')
    have hr : x ≠ r.1 := fun heq => hfree r mem_cons_self heq.symm
    rw [insertRoute]
    split
    · rename_i hlt
      refine pairwise_cons.mpr ⟨fun r' hr' => ?_, h⟩
      rcases mem_cons.mp hr' with rfl | hr'
      · exact hlt
      · exact lt_trans hlt (hhead r' hr')
    · rename_i hnot
      refine pairwise_cons.mpr ⟨fun r' hr' => ?_, ih hfree' htail⟩
      rcases (mem_insertRoute hfree').mp hr' with rfl | hr'
      · exact lt_of_le_of_ne (le_of_not_gt hnot) (fun heq => hr heq.symm)
      · exact hhead r' hr'

/-! ## Tilings. -/

/-- The ranges `own` cover every key once. -/
structure Partition (own : Nat → Option RangeDesc) : Prop where
  cover : ∀ key, ∃ i d, own i = some d ∧ d.Contains key
  apart : ∀ {i j d e key}, own i = some d → own j = some e → d.Contains key → e.Contains key → i = j
  start : ∀ {i d}, own i = some d → d.Contains d.start

/-- The ranges `own` cover every key once, and the routing table lists their starts. -/
structure Tiling (own : Nat → Option RangeDesc) (routing : List (Key × Nat)) : Prop
    extends Partition own where
  routes : ∀ {s i}, (s, i) ∈ routing ↔ ∃ d, own i = some d ∧ d.start = s
  sorted : routing.Pairwise (fun a b => a.1 < b.1)

theorem Partition.start_inj {own : Nat → Option RangeDesc} (h : Partition own) {i j : Nat}
    {e : RangeDesc} (hd : own i = some d) (he : own j = some e) (hstart : d.start = e.start) :
    i = j :=
  h.apart hd he (h.start hd) (hstart ▸ h.start he)

theorem Tiling.route {own : Nat → Option RangeDesc} (h : Tiling own routing) {route : Key × Nat}
    (hlast : (routing.filter (fun route => route.1 ≤ key)).getLast? = some route) :
    ∃ d, own route.2 = some d ∧ d.Contains key := by
  obtain ⟨j, e, hj, hin⟩ := h.cover key
  have hmem := List.mem_of_getLast? hlast
  obtain ⟨hroute, hle⟩ := mem_filter.mp hmem
  have hle : route.1 ≤ key := of_decide_eq_true hle
  obtain ⟨d, hd, hs⟩ := h.routes.mp hroute
  -- the owner's own route is no later than the last one
  have hown : (e.start, j) ∈ routing.filter (fun route => route.1 ≤ key) :=
    mem_filter.mpr ⟨h.routes.mpr ⟨e, hj, rfl⟩, decide_eq_true hin.1⟩
  have hmax : e.start ≤ route.1 := by
    have hsorted := h.sorted.filter (fun route => route.1 ≤ key)
    obtain ⟨front, hfront⟩ := List.getLast?_eq_some_iff.mp hlast
    rw [hfront] at hown hsorted
    rcases mem_append.mp hown with hown | hown
    · exact le_of_lt ((pairwise_append.mp hsorted).2.2 _ hown _ mem_cons_self)
    · rw [← mem_singleton.mp hown]
  have hinside : e.Contains route.1 := ⟨hmax, hin.2.imp id (fun hend => lt_of_le_of_lt hle hend)⟩
  have hstart : d.Contains route.1 := hs ▸ h.start hd
  have hij := h.apart hd hj hstart hinside
  rw [hij] at hd ⊢
  exact ⟨e, hj, hin⟩

section

variable {own : Nat → Option RangeDesc} {p c : Nat} {d : RangeDesc} {x : Key}

/-- The ranges after `p` is cut at `x` and `c` takes the upper part. -/
def cutAt (own : Nat → Option RangeDesc) (p : Nat) (d : RangeDesc) (c : Nat) (x : Key) :
    Nat → Option RangeDesc :=
  Function.update (Function.update own p (some { d with endKey := x })) c (some ⟨c, x, d.endKey⟩)

theorem cutAt_child : cutAt own p d c x c = some ⟨c, x, d.endKey⟩ := update_self _ _ _

theorem cutAt_parent (hpc : p ≠ c) : cutAt own p d c x p = some { d with endKey := x } := by
  unfold cutAt
  rw [update_of_ne hpc, update_self]

theorem cutAt_other {i : Nat} (hip : i ≠ p) (hic : i ≠ c) : cutAt own p d c x i = own i := by
  unfold cutAt
  rw [update_of_ne hic, update_of_ne hip]

theorem cutAt_inside (hpc : p ≠ c) (hx : d.Contains x) (hne : x ≠ d.start) {i : Nat}
    {e : RangeDesc} {key : Key} (hi : cutAt own p d c x i = some e) (hin : e.Contains key) :
    (i = c ∧ d.Contains key ∧ (⟨c, x, d.endKey⟩ : RangeDesc).Contains key) ∨
    (i = p ∧ d.Contains key ∧ ({ d with endKey := x } : RangeDesc).Contains key) ∨
    (i ≠ p ∧ i ≠ c ∧ own i = some e) := by
  by_cases hic : i = c
  · subst hic
    rw [cutAt_child] at hi
    cases hi
    exact .inl ⟨rfl, (contains_cut hx hne i).mpr (.inr hin), hin⟩
  · by_cases hip : i = p
    · subst hip
      rw [cutAt_parent hpc] at hi
      cases hi
      exact .inr (.inl ⟨rfl, (contains_cut hx hne c).mpr (.inl hin), hin⟩)
    · rw [cutAt_other hip hic] at hi
      exact .inr (.inr ⟨hip, hic, hi⟩)

theorem Partition.split (h : Partition own) (hp : own p = some d) (hx : d.Contains x)
    (hne : x ≠ d.start) (hc : own c = none) : Partition (cutAt own p d c x) := by
  have hpc : p ≠ c := by
    rintro rfl
    rw [hp] at hc
    cases hc
  refine ⟨fun key => ?_, ?_, ?_⟩
  · obtain ⟨i, e, hi, hin⟩ := h.cover key
    by_cases hip : i = p
    · rw [hip, hp] at hi
      cases hi
      rcases (contains_cut hx hne c).mp hin with hin | hin
      · exact ⟨p, _, cutAt_parent hpc, hin⟩
      · exact ⟨c, _, cutAt_child, hin⟩
    · have hic : i ≠ c := by
        rintro rfl
        rw [hc] at hi
        cases hi
      exact ⟨i, e, by rw [cutAt_other hip hic]; exact hi, hin⟩
  · intro i j e e' key hi hj hin hin'
    rcases cutAt_inside hpc hx hne hi hin with ⟨rfl, hd, hr⟩ | ⟨rfl, hd, hr⟩ | ⟨hip, _, hoi⟩ <;>
      rcases cutAt_inside hpc hx hne hj hin' with ⟨rfl, hd', hr'⟩ | ⟨rfl, hd', hr'⟩ | ⟨hjp, _, hoj⟩
    · rfl
    · exact absurd hr' (fun hl => cut_apart hx hne hl hr)
    · exact absurd (h.apart hoj hp hin' hd) hjp
    · exact absurd hr (fun hl => cut_apart hx hne hl hr')
    · rfl
    · exact absurd (h.apart hoj hp hin' hd) hjp
    · exact absurd (h.apart hoi hp hin hd') hip
    · exact absurd (h.apart hoi hp hin hd') hip
    · exact h.apart hoi hoj hin hin'
  · intro i e hi
    by_cases hic : i = c
    · subst hic
      rw [cutAt_child] at hi
      cases hi
      exact ⟨le_refl _, hx.2⟩
    · by_cases hip : i = p
      · subst hip
        rw [cutAt_parent hpc] at hi
        cases hi
        exact ⟨le_refl _, .inr (lt_of_le_of_ne hx.1 (fun heq => hne heq.symm))⟩
      · rw [cutAt_other hip hic] at hi
        exact h.start hi

theorem Tiling.split {routing : List (Key × Nat)} (h : Tiling own routing) (hp : own p = some d)
    (hx : d.Contains x) (hne : x ≠ d.start) (hc : own c = none) :
    Tiling (cutAt own p d c x) (insertRoute x c routing) := by
  have hpc : p ≠ c := by
    rintro rfl
    rw [hp] at hc
    cases hc
  have hfree : ∀ route ∈ routing, route.1 ≠ x := by
    rintro ⟨s, i⟩ hroute rfl
    obtain ⟨e, he, hs⟩ := h.routes.mp hroute
    have hes : e.Contains s := hs ▸ h.start he
    have hip := h.apart he hp hes hx
    rw [hip, hp] at he
    cases he
    exact hne hs.symm
  have hpart := h.toPartition.split hp hx hne hc
  refine ⟨hpart, ?_, sorted_insertRoute hfree h.sorted⟩
  intro s i
  rw [mem_insertRoute hfree]
  constructor
  · rintro (heq | hroute)
    · cases heq
      exact ⟨_, cutAt_child, rfl⟩
    · obtain ⟨e, he, hs⟩ := h.routes.mp hroute
      by_cases hip : i = p
      · subst hip
        rw [hp] at he
        cases he
        exact ⟨_, cutAt_parent hpc, hs⟩
      · have hic : i ≠ c := by
          rintro rfl
          rw [hc] at he
          cases he
        exact ⟨e, by rw [cutAt_other hip hic]; exact he, hs⟩
  · rintro ⟨e, he, hs⟩
    by_cases hic : i = c
    · subst hic
      rw [cutAt_child] at he
      cases he
      exact .inl (by rw [← hs])
    · right
      by_cases hip : i = p
      · subst hip
        rw [cutAt_parent hpc] at he
        cases he
        exact h.routes.mpr ⟨d, hp, hs⟩
      · rw [cutAt_other hip hic] at he
        exact h.routes.mpr ⟨e, he, hs⟩

end

/-! ## Two tilings. -/

section

variable {own own' : Nat → Option RangeDesc} {routing routing' : List (Key × Nat)}

section

variable (h : Tiling own routing) (h' : Tiling own' routing')
  (hcommon : ∀ {i d e}, own i = some d → own' i = some e → d = e)
  (hstart : ∀ {i j d e}, own i = some d → own' j = some e → d.start = e.start → i = j)

include h h' hcommon hstart

theorem Tiling.below {i : Nat} {d : RangeDesc} (hi : own i = some d) (hi' : own' i = none) :
    ∃ m e, own' m = some e ∧ own m = none ∧ e.start < d.start := by
  obtain ⟨m, e, hm, hin⟩ := h'.cover d.start
  have hmi : m ≠ i := by
    rintro rfl
    rw [hi'] at hm
    cases hm
  refine ⟨m, e, hm, ?_, lt_of_le_of_ne hin.1 (fun heq => hmi (hstart hi hm heq.symm).symm)⟩
  cases hown : own m with
  | none => rfl
  | some f =>
    obtain rfl := hcommon hown hm
    exact absurd (h.apart hown hi hin (h.start hi)) hmi

theorem Tiling.unique : own = own' := by
  -- the least start of a range that only one of them has
  let only : Set Key := {s | ∃ i d, d.start = s ∧
    ((own i = some d ∧ own' i = none) ∨ (own' i = some d ∧ own i = none))}
  have hfin : only.Finite := by
    refine Set.Finite.subset (List.finite_toSet ((routing ++ routing').map Prod.fst)) ?_
    rintro s ⟨i, d, rfl, ⟨hi, _⟩ | ⟨hi, _⟩⟩
    · exact mem_map.mpr ⟨(d.start, i), mem_append_left _ (h.routes.mpr ⟨d, hi, rfl⟩), rfl⟩
    · exact mem_map.mpr ⟨(d.start, i), mem_append_right _ (h'.routes.mpr ⟨d, hi, rfl⟩), rfl⟩
  have hnone : only = ∅ := by
    by_contra hne
    obtain ⟨s, ⟨i, d, rfl, hi⟩, hmin⟩ :=
      Set.exists_min_image only id hfin (Set.nonempty_iff_ne_empty.mpr hne)
    rcases hi with ⟨hi, hi'⟩ | ⟨hi, hi'⟩
    · obtain ⟨m, e, hm, hm', hlt⟩ := h.below h' hcommon hstart hi hi'
      exact absurd (hmin e.start ⟨m, e, rfl, .inr ⟨hm, hm'⟩⟩) (not_le_of_gt hlt)
    · obtain ⟨m, e, hm, hm', hlt⟩ := h'.below h (fun hd he => (hcommon he hd).symm)
        (fun hd he heq => (hstart he hd heq.symm).symm) hi hi'
      exact absurd (hmin e.start ⟨m, e, rfl, .inl ⟨hm, hm'⟩⟩) (not_le_of_gt hlt)
  funext i
  cases hi : own i with
  | none =>
    cases hi' : own' i with
    | none => rfl
    | some e =>
      have hmem : e.start ∈ only := ⟨i, e, rfl, .inr ⟨hi', hi⟩⟩
      rw [hnone] at hmem
      exact hmem.elim
  | some d =>
    cases hi' : own' i with
    | none =>
      have hmem : d.start ∈ only := ⟨i, d, rfl, .inl ⟨hi, hi'⟩⟩
      rw [hnone] at hmem
      exact hmem.elim
    | some e => rw [hcommon hi hi']

end

end

end Flotilla.Server
